import McpToolkit.Adapter.Locate
import McpToolkit.Adapter.Server
import McpToolkit.Json.View
/-!
# What the adapter reads

The spans of a parsed message can be read, and the params are the text of a
scanned value, which does not end on a backslash.  So no function of the adapter
reads outside the message.
-/

namespace McpToolkit

open JsonParser Scan MCPAdapter

/-! ## The end of a value -/

namespace MCPAdapter

theorem noDangling_concat {b : UInt8} (hb : b ≠ backslash) (w : Bytes) :
    NoDangling (w ++ [b]) := by
  intro h
  have hlast := List.suffix_iff_eq_append.mp h
  have := congrArg List.getLast? hlast
  rw [List.getLast?_concat, List.getLast?_concat] at this
  exact hb (Option.some.inj this).symm

theorem noDangling_of_notMem {w : Bytes} (h : backslash ∉ w) : NoDangling w :=
  fun hsuffix => h (hsuffix.subset (List.mem_singleton.mpr rfl))

end MCPAdapter

namespace Scan

theorem value_noDangling {l r : Bytes} (h : value l = some r) :
    NoDangling (Slice.text ⟨l, r⟩) := by
  have hclass : ∀ {P : UInt8 → Prop}, ¬ P backslash → Consumes P l r →
      NoDangling (Slice.text ⟨l, r⟩) := by
    rintro P hP ⟨w, rfl, hw⟩
    rw [Slice.text_append]
    exact noDangling_of_notMem fun hmem => hP (hw backslash hmem)
  have hlast : ∀ {b : UInt8}, b ≠ backslash → (∃ w, l = w ++ b :: r) →
      NoDangling (Slice.text ⟨l, r⟩) := by
    rintro b hb ⟨w, rfl⟩
    rw [List.append_cons, Slice.text_append]
    exact noDangling_concat hb w
  cases l with
  | nil => cases h
  | cons c t =>
      rw [value] at h
      split_ifs at h with hq ho ha ht hf hn hd
      · obtain ⟨text, rfl, -⟩ := string_split h
        exact hlast (show quote ≠ backslash by decide) ⟨c :: text, rfl⟩
      · obtain ⟨w, rfl⟩ := container_split h
        exact hlast (show rbrace ≠ backslash by decide) ⟨c :: w, rfl⟩
      · obtain ⟨w, rfl⟩ := container_split h
        exact hlast (show rbracket ≠ backslash by decide) ⟨c :: w, rfl⟩
      · exact hclass (by decide) (consumes_literal h)
      · exact hclass (by decide) (consumes_literal h)
      · exact hclass (by decide) (consumes_literal h)
      · exact hclass (by decide) (consumes_number h)

end Scan

/-! ## The message -/

/-- What the adapter reads of a message of `buf` can be read. -/
structure MCPMessage.Readable (buf : Bytes) (msg : MCPMessage) : Prop where
  rawInput : msg.rawInput = some buf
  method : ∃ t, msg.method.text buf = .ok t
  params : ∃ t, msg.params.text buf = .ok t ∧ NoDangling t

variable {buf : Bytes} {msg : MCPMessage}

theorem MCPMessage.blank_readable (buf : Bytes) : (MCPMessage.blank buf).Readable buf where
  rawInput := rfl
  method := ⟨[], rfl⟩
  params := ⟨[], rfl, noDangling_of_notMem List.not_mem_nil⟩

theorem ErrorField.apply_readable (f : ErrorField) (h : msg.Readable buf) :
    (f.apply buf.length msg).Readable buf := by
  cases f with
  | code n => exact { h with }
  | message s => exact { h with }
  | other v => exact h

theorem TopField.apply_readable {f : TopField} (hf : f.Sound buf) (h : msg.Readable buf) :
    (f.apply buf.length msg).Readable buf := by
  cases f with
  | method s => exact { h with method := ⟨_, (Slice.IsContent.reads hf).2⟩ }
  | params v => exact { h with params := ⟨_, hf.reads.2, value_noDangling hf.scans⟩ }
  | error fields v =>
      have hfill : (fill (ErrorField.apply buf.length) fields msg).Readable buf :=
        fill_induction h fun f _ msg h => f.apply_readable h
      exact { hfill with }
  | id n => exact { h with }
  | result v => exact { h with }
  | other v => exact h

theorem parse_readable {json : Option Bytes} {maxBytes : Nat}
    (h : MCPMessage.parse json maxBytes = .ok msg) (hvalid : msg.valid) :
    ∃ buf, json = some buf ∧ buf.length ≤ maxBytes ∧ msg.Readable buf := by
  obtain ⟨s, fields, r, hs, hmax, ht, rfl⟩ := parse_valid h hvalid
  have hfill := fill_induction (MCPMessage.blank_readable s) fun f hmem msg h =>
    TopField.apply_readable (top_sound ht f hmem) h
  exact ⟨s, hs, hmax, { hfill with }⟩

namespace MCPMessage.Readable

theorem method_text (h : msg.Readable buf) : ∃ t, spanText msg msg.method = .ok t := by
  rw [spanText, h.rawInput]
  exact h.method

theorem params_text (h : msg.Readable buf) :
    ∃ t, spanText msg msg.params = .ok t ∧ NoDangling t := by
  rw [spanText, h.rawInput]
  exact h.params

end MCPMessage.Readable

/-! ## The params -/

namespace Search

theorem stringOf_suffix {key l : Bytes} {s : Slice} (h : stringOf key l = some s) :
    s.start <:+ l := by
  obtain ⟨t, ht, hs⟩ := Option.bind_eq_some_iff.mp h
  obtain ⟨r, -, rfl⟩ := Option.map_eq_some_iff.mp hs
  refine atQuotes_suffix (fun t r hr => ?_) ht
  obtain ⟨u, hu, hopen⟩ := Option.bind_eq_some_iff.mp hr
  obtain ⟨v, hv, hquote⟩ := Option.bind_eq_some_iff.mp hopen
  exact (after_suffix hquote).trans ((after_suffix hv).trans (keyed_suffix t u hu))

theorem valueOf_suffix {key l : Bytes} {s : Slice} (h : valueOf key l = some s) :
    s.start <:+ l := by
  obtain ⟨u, hu, hs⟩ := Option.bind_eq_some_iff.mp h
  obtain ⟨t, ht, hcolon⟩ := Option.bind_eq_some_iff.mp hu
  have hrest : u.dropWhile isBlank <:+ l :=
    (List.dropWhile_suffix isBlank).trans
      ((after_suffix hcolon).trans (atQuotes_suffix keyed_suffix ht))
  rw [delimited] at hs
  split at hs
  · cases hs
  · next c t hblank =>
      cases hs
      rwa [hblank] at hrest

end Search

namespace MCPAdapter

open Search

variable {json : Bytes}

/-- What `extract_string` finds can be read. -/
theorem extractString_text (json key : Bytes) :
    ∃ ok span t, extractString json key = .ok (ok, span) ∧ span.text json = .ok t := by
  rw [extractString_eq]
  cases hs : stringOf key json with
  | none => exact ⟨false, {}, [], rfl, rfl⟩
  | some s => exact ⟨true, _, _, rfl, Slice.text_span (stringOf_suffix hs)⟩

theorem argsJson_ok (hjson : NoDangling json) : ∃ args, argsJson json = .ok args := by
  unfold argsJson
  rw [extractValueSpan_eq hjson, ok_bind]
  cases hs : valueOf (ascii "arguments") json with
  | none => exact ⟨[lbrace, rbrace], rfl⟩
  | some s => exact ⟨s.text, Slice.text_span (valueOf_suffix hs)⟩

theorem defaultAuthToken_ok (h : msg.Readable buf) :
    ∃ token, defaultAuthToken msg = .ok token := by
  obtain ⟨json, hjson, -⟩ := h.params_text
  obtain ⟨ok, span, t, hspan, ht⟩ := extractString_text json (ascii "auth_token")
  unfold defaultAuthToken
  rw [hjson, ok_bind, hspan, ok_bind]
  cases ok with
  | false => exact ⟨[], rfl⟩
  | true => exact ⟨t, ht⟩

/-! ## No read outside the params -/

theorem found_within {out : Span} {r : Option Slice} (h : ∀ s, r = some s → s.start <:+ json) :
    (found json out r).1 = true → (found json out r).2.Within json := by
  cases r with
  | none => exact fun hok => absurd hok Bool.false_ne_true
  | some s =>
      intro _
      have hlen := (h s rfl).length_le
      refine ⟨json.length - s.start.length, rfl, ?_⟩
      simp only [found, Slice.span]
      omega

/-- On the params of a message that was accepted, both searches end for every key
without a read outside the params, and what they return lies inside. -/
theorem extract_within_params {input : Option Bytes} {maxBytes : Nat}
    (hparse : MCPMessage.parse input maxBytes = .ok msg) (hvalid : msg.valid = true) :
    ∃ params, spanText msg msg.params = .ok params ∧ params.length = msg.params.len ∧
      ∀ key,
        (∃ ok span, extractString params key = .ok (ok, span) ∧
          (ok = true → span.Within params)) ∧
        ∀ out, ∃ ok span, extractValueSpan params key out = .ok (ok, span) ∧
          (ok = true → span.Within params) := by
  obtain ⟨buf, -, -, hreadable⟩ := parse_readable hparse hvalid
  obtain ⟨params, hparams, hdangling⟩ := hreadable.params_text
  refine ⟨params, hparams, Span.length_text hparams, fun key => ⟨?_, fun out => ?_⟩⟩
  · exact ⟨_, _, extractString_eq params key, found_within fun s hs => stringOf_suffix hs⟩
  · exact ⟨_, _, extractValueSpan_eq hdangling key out, found_within fun s hs => valueOf_suffix hs⟩

/-- A line whose params hold a key that ends on a backslash. -/
def backslashLine : Bytes := ascii "\x7b\"params\":\x7b\"a\\\\\":1\x7d\x7d"

theorem extract_within_params_of_backslash :
    ∃ msg, MCPMessage.parse (some backslashLine) kDefaultMaxBytes = .ok msg ∧ msg.valid = true ∧
      ∃ params, spanText msg msg.params = .ok params ∧ params.length = msg.params.len ∧
      ∀ key,
        (∃ ok span, extractString params key = .ok (ok, span) ∧
          (ok = true → span.Within params)) ∧
        ∀ out, ∃ ok span, extractValueSpan params key out = .ok (ok, span) ∧
          (ok = true → span.Within params) := by
  have hparse : MCPMessage.parse (some backslashLine) kDefaultMaxBytes =
      .ok { MCPMessage.blank backslashLine with params := ⟨some 10, 9⟩, valid := true } := by
    decide +kernel
  exact ⟨_, hparse, rfl, extract_within_params hparse rfl⟩

end MCPAdapter

end McpToolkit
