import McpToolkit.Adapter.Injection
import McpToolkit.Adapter.Provenance
import McpToolkit.Path.Escapes
/-!
# Percent escapes in arguments

Arguments are searched for metacharacters and for percent escapes that stand for them.
If a tool decodes percent escapes, what it gets to see has a metacharacter only from an
escape for a blank, which is the one that is not searched for.
-/

namespace McpToolkit

open InputValidationHandler
open PathValidator (percentDecode)

/-! ## Octets of a decoded text -/

/-- A percent escape in the text stands for this octet. -/
def HasEscape (c : UInt8) (text : Bytes) : Prop :=
  ∃ a b, isHex a = true ∧ isHex b = true ∧ (hexValue a * 16 + hexValue b).toUInt8 = c ∧
    [percent, a, b] <:+: text

theorem hasEscape_cons {c x : UInt8} (hx : x ≠ percent) (t : Bytes) :
    HasEscape c (x :: t) ↔ HasEscape c t := by
  unfold HasEscape
  refine exists₂_congr fun a b => ?_
  rw [List.infix_cons_iff, or_iff_right]
  intro hbegins
  exact hx (List.cons_prefix_cons.mp hbegins).1.symm

theorem ne_percent_of_isHex {x : UInt8} (h : isHex x = true) : x ≠ percent := by
  rintro rfl
  exact absurd h (by decide)

/-- An escape at the start is the one that is decoded. -/
theorem hasEscape_escape {c x y : UInt8} (hx : isHex x = true) (hy : isHex y = true) (t : Bytes) :
    HasEscape c (percent :: x :: y :: t) ↔
      c = (hexValue x * 16 + hexValue y).toUInt8 ∨ HasEscape c t := by
  rw [← hasEscape_cons (ne_percent_of_isHex hy) t,
    ← hasEscape_cons (ne_percent_of_isHex hx) (y :: t)]
  constructor
  · rintro ⟨a, b, ha, hb, hvalue, hpart⟩
    rcases List.infix_cons_iff.mp hpart with ⟨r, hr⟩ | hpart
    · cases hr
      exact .inl hvalue.symm
    · exact .inr ⟨a, b, ha, hb, hvalue, hpart⟩
  · rintro (hvalue | ⟨a, b, ha, hb, hvalue, hpart⟩)
    · exact ⟨x, y, hx, hy, hvalue.symm, (List.prefix_append [percent, x, y] t).isInfix⟩
    · exact ⟨a, b, ha, hb, hvalue, List.infix_cons hpart⟩

/-- Where nothing is decoded there is no escape. -/
theorem hasEscape_other {c x : UInt8} {t : Bytes}
    (h : ∀ a b r, t = a :: b :: r → ¬ (x = percent ∧ isHex a = true ∧ isHex b = true)) :
    HasEscape c (x :: t) ↔ HasEscape c t := by
  unfold HasEscape
  refine exists₂_congr fun a b => and_congr_right fun ha => and_congr_right fun hb =>
    and_congr_right fun _ => ?_
  rw [List.infix_cons_iff, or_iff_right]
  rintro ⟨r, hr⟩
  obtain ⟨hpercent, ht⟩ := List.cons.inj hr
  exact h a b r ht.symm ⟨hpercent.symm, ha, hb⟩

/-- Whatever octet of a decoded text is neither `%` nor a digit was there before, or an
escape stands for it. -/
theorem mem_percentDecode {c : UInt8} (hpercent : c ≠ percent) (hdigit : isHex c = false)
    (text : Bytes) : c ∈ percentDecode text ↔ c ∈ text ∨ HasEscape c text := by
  have hne : ∀ {x : UInt8}, isHex x = true → c ≠ x := by
    rintro x hx rfl
    exact Bool.false_ne_true (hdigit.symm.trans hx)
  induction text using PathValidator.percentDecode.induct with
  | case1 a x y t hescape ih =>
      rw [percentDecode, if_pos hescape]
      obtain ⟨rfl, hx, hy⟩ := hescape
      have hrest : c ∈ percentDecode t ↔ c ∈ t ∨ HasEscape c t := ih
      rw [List.mem_cons, hrest, hasEscape_escape hx hy, List.mem_cons, List.mem_cons, List.mem_cons,
        or_iff_right hpercent, or_iff_right (hne hx), or_iff_right (hne hy), or_left_comm]
  | case2 a x y t hescape ih =>
      have hother : HasEscape c (a :: x :: y :: t) ↔ HasEscape c (x :: y :: t) := by
        apply hasEscape_other
        rintro a' b' r ⟨⟩
        exact hescape
      have hrest : c ∈ percentDecode (x :: y :: t) ↔
          c ∈ x :: y :: t ∨ HasEscape c (x :: y :: t) := ih
      rw [percentDecode, if_neg hescape, List.mem_cons, hrest, hother,
        List.mem_cons (a := c) (b := a), or_assoc]
  | case3 a t hshort ih =>
      have hother : HasEscape c (a :: t) ↔ HasEscape c t := by
        apply hasEscape_other
        rintro a' b' r rfl
        exact absurd rfl (hshort a' b' r)
      have hrest : c ∈ percentDecode t ↔ c ∈ t ∨ HasEscape c t := ih
      rw [percentDecode.eq_2 a t hshort, List.mem_cons, hrest, hother, List.mem_cons, or_assoc]
  | case4 =>
      refine (or_iff_left ?_).symm
      rintro ⟨a, b, -, -, -, hpart⟩
      exact absurd (List.infix_nil.mp hpart) (List.cons_ne_nil _ _)

/-! ## Escapes that are searched for -/

def hexDigits : Bytes := ascii "0123456789abcdefABCDEF"

theorem mem_hexDigits : ∀ b, isHex b = true → b ∈ hexDigits :=
  octets_forall (by decide +kernel)

/-- The metacharacters, and the two that are searched for as escapes alone. -/
def dangerous : Bytes := metacharacters ++ ascii "<>"

/-- All ways to write a dangerous octet as an escape are listed, except for a blank. -/
theorem escape_listed : ∀ a ∈ hexDigits, ∀ b ∈ hexDigits,
    (hexValue a * 16 + hexValue b).toUInt8 ∈ dangerous →
      [percent, a, b] ∈ encodedPatterns ∨ [percent, a, b] = ascii "%20" := by
  decide +kernel

theorem dangerous_plain : ∀ c ∈ dangerous, c ≠ percent ∧ isHex c = false := by
  decide +kernel

section accepted

variable {value : Bytes} (hencoded : containsEncodedMetacharacters value = false)
include hencoded

theorem hasEscape_accepted {c : UInt8} (hc : c ∈ dangerous) :
    HasEscape c value ↔ c = space ∧ ascii "%20" <:+: value := by
  constructor
  · rintro ⟨a, b, ha, hb, rfl, hpart⟩
    rcases escape_listed a (mem_hexDigits a ha) b (mem_hexDigits b hb) hc with hlisted | hblank
    · rw [containsEncodedMetacharacters, List.any_eq_false] at hencoded
      exact absurd (decide_eq_true hpart) (hencoded _ hlisted)
    · rw [hblank] at hpart
      have hpair : [percent, a, b] = [percent, 0x32, 0x30] := hblank
      cases hpair
      exact ⟨rfl, hpart⟩
  · rintro ⟨rfl, hpart⟩
    exact ⟨0x32, 0x30, rfl, rfl, rfl, hpart⟩

theorem mem_decoded {c : UInt8} (hc : c ∈ dangerous) :
    c ∈ percentDecode value ↔ c ∈ value ∨ c = space ∧ ascii "%20" <:+: value := by
  obtain ⟨hpercent, hdigit⟩ := dangerous_plain c hc
  rw [mem_percentDecode hpercent hdigit, hasEscape_accepted hencoded hc]

end accepted

namespace MCPAdapter

/-- In every run the arguments of a tool that is called, once their percent escapes are
decoded, have a metacharacter of the shell exactly if they have an escape for a blank, and an
angle bracket exactly if they have one as it is. -/
theorem call_decoded_iff {σ : Type} {server : Server σ} {hmac : Bytes → Bytes → Digest}
    {s s' : AdapterState σ} {inputs : List Input} {events : List Event} {name args : Bytes}
    {user : Option User} (h : run server hmac inputs s = .ok (s', events))
    (hcall : .callTool name args user ∈ events) :
    (containsShellMetacharacters (percentDecode args) = true ↔ ascii "%20" <:+: args) ∧
      ∀ c ∈ ascii "<>", (c ∈ percentDecode args ↔ c ∈ args) := by
  obtain ⟨_, _, _, _, _, _, -, -, hcalled⟩ := run_called h hcall
  obtain ⟨_, _, -, -, -, -, hraw, hencoded⟩ := toolRequest_ok hcalled.wants.request
  rw [← Bool.not_eq_true, containsShellMetacharacters_iff] at hraw
  have hblank : space ∈ metacharacters := by decide
  constructor
  · rw [containsShellMetacharacters_iff]
    constructor
    · rintro ⟨c, hmem, hc⟩
      have hdecoded := (mem_decoded hencoded (List.mem_append_left _ hc)).mp hmem
      exact (hdecoded.resolve_left fun hmem => hraw ⟨c, hmem, hc⟩).2
    · intro hpart
      refine ⟨space, ?_, hblank⟩
      exact (mem_decoded hencoded (List.mem_append_left _ hblank)).mpr (.inr ⟨rfl, hpart⟩)
  · intro c hc
    have hne : c ≠ space := by
      rintro rfl
      exact absurd hc (by decide)
    rw [mem_decoded hencoded (List.mem_append_right _ hc)]
    exact or_iff_left fun hspace => hne hspace.1

/-- A call with an escape for a blank in its argument. -/
theorem run_blankLine : ∃ s' events,
    run (Server.base Unit) secretHmac [⟨commandLine (ascii "ls%20-l"), 0, 0⟩] ⟨{}, ()⟩ =
        .ok (s', events) ∧
      .callTool (ascii "t") (ascii "\x7b\"cmd\":\"ls%20-l\"\x7d") none ∈ events := by
  have hcomputed : (runLine (Server.base Unit) secretHmac
      ⟨commandLine (ascii "ls%20-l"), 0, 0⟩ ⟨{}, ()⟩).toOption.map (·.2.contains
        (.callTool (ascii "t") (ascii "\x7b\"cmd\":\"ls%20-l\"\x7d") none)) = some true := by
    decide +kernel
  obtain ⟨s', events, hline⟩ := runLine_returns (Server.base Unit) secretHmac
    ⟨commandLine (ascii "ls%20-l"), 0, 0⟩ ⟨{}, ()⟩
  rw [hline] at hcomputed
  exact ⟨s', events, run_singleton hline,
    List.contains_iff_mem.mp (Option.some.inj hcomputed)⟩

theorem call_decoded_iff_of_blank : containsShellMetacharacters
    (percentDecode (ascii "\x7b\"cmd\":\"ls%20-l\"\x7d")) = true := by
  obtain ⟨s', events, hrun, hcall⟩ := run_blankLine
  exact (call_decoded_iff hrun hcall).1.mpr (by decide +kernel)

end MCPAdapter

end McpToolkit
