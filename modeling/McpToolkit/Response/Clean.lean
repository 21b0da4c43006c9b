import McpToolkit.Response.Hidden
import McpToolkit.Response.Paths
/-!
# Injection patterns in what is returned

The check comes before the two passes.  Hiding paths makes no pattern, but escaping
does: the last letter of an escape stands next to what follows it.
-/

namespace McpToolkit

namespace ResponseSanitizer

/-! ## Phrases -/

/-- A text of lower-case letters and spaces, like all patterns. -/
structure IsPhrase (p : Bytes) : Prop where
  long : 6 ≤ p.length
  letter : ∀ b ∈ p, b = space ∨ (0x61 ≤ b ∧ b ≤ 0x7A)

theorem injectionPatterns_phrase : ∀ p ∈ injectionPatterns, IsPhrase p := by
  have hlong : ∀ p ∈ injectionPatterns, 6 ≤ p.length := by decide
  have hletter : ∀ p ∈ injectionPatterns, ∀ b ∈ p, b = space ∨ (0x61 ≤ b ∧ b ≤ 0x7A) := by
    decide +kernel
  exact fun p hp => ⟨hlong p hp, hletter p hp⟩

theorem containsInjectionPatterns_iff {s : Bytes} :
    containsInjectionPatterns s = true ↔ ∃ p ∈ injectionPatterns, p <:+: lower s := by
  simp [containsInjectionPatterns]

/-- A text does not start behind an octet that it does not have. -/
theorem not_prefix_cons {p : Bytes} {c : UInt8} (hne : p ≠ []) (hc : c ∉ p) (s : Bytes) :
    ¬ p <+: c :: s := by
  intro h
  cases p with
  | nil => exact hne rfl
  | cons b p =>
      obtain rfl := (List.cons_prefix_cons.mp h).1
      exact hc List.mem_cons_self

namespace IsPhrase

variable {p : Bytes} (hp : IsPhrase p)
include hp

theorem ne_nil : p ≠ [] := by
  rintro rfl
  exact absurd hp.long (by decide)

theorem notMem {c : UInt8} (hc : ¬ (c = space ∨ (0x61 ≤ c ∧ c ≤ 0x7A))) : c ∉ p :=
  fun h => hc (hp.letter c h)

theorem infix_cons {c : UInt8} (hc : c ∉ p) (s : Bytes) : p <:+: c :: s ↔ p <:+: s := by
  rw [List.infix_cons_iff, or_iff_right (not_prefix_cons hp.ne_nil hc s)]

end IsPhrase

/-! ## Hiding paths -/

/-- A pattern is too long to lie in a marker, and has neither of its brackets. -/
theorem infix_pathMarker {p : Bytes} (hlong : 6 ≤ p.length) (hopen : lbracket ∉ p)
    (hclose : rbracket ∉ p) (s : Bytes) :
    p <:+: lower (pathMarker ++ s) ↔ p <:+: lower s := by
  have hmarker : lower (pathMarker ++ s) =
      ascii "/[path" ++ rbracket :: lower s := by
    rw [lower, List.map_append]
    rfl
  have hinner : ¬ p <:+: ascii "/[path" := by
    have hsplit : ascii "/[path" = [slash] ++ lbracket :: ascii "path" := by decide
    rw [hsplit, infix_append_cons_iff hopen, not_or]
    constructor <;> exact fun h => absurd (hlong.trans h.length_le) (by decide)
  rw [hmarker, infix_append_cons_iff hclose, or_iff_right hinner]

/-- What the text with hidden paths starts with, the text itself starts with. -/
theorem Redacts.prefix_of {start : Bool} {s s' p : Bytes} (h : Redacts start s s')
    (hp : slash ∉ p) (hlead : p <+: lower s') : p <+: lower s := by
  induction h generalizing p with
  | nil => exact hlead
  | keep b _ ih =>
      cases p with
      | nil => exact List.nil_prefix
      | cons c p =>
          rw [List.mem_cons, not_or] at hp
          obtain ⟨hc, hrest⟩ := List.cons_prefix_cons.mp hlead
          exact List.cons_prefix_cons.mpr ⟨hc, ih hp.2 hrest⟩
  | hide _ _ _ _ _ _ =>
      cases p with
      | nil => exact List.nil_prefix
      | cons c p =>
          obtain ⟨rfl, -⟩ := List.cons_prefix_cons.mp hlead
          exact absurd List.mem_cons_self hp

/-- No pattern begins, ends or lies in a marker. -/
theorem Redacts.infix_of {start : Bool} {s s' p : Bytes} (h : Redacts start s s')
    (hp : IsPhrase p) (hpart : p <:+: lower s') : p <:+: lower s := by
  have hslash : slash ∉ p := hp.notMem (by decide)
  induction h with
  | nil => exact hpart
  | @keep start b t t' hrest ih =>
      have hkeep : Redacts start (b :: t) (b :: t') := .keep b hrest
      rw [lower, List.map_cons, List.infix_cons_iff] at hpart ⊢
      rcases hpart with hlead | hpart
      · exact .inl (hkeep.prefix_of hslash hlead)
      · exact .inr (ih hpart)
  | @hide path rest rest' _ _ _ _ _ ih =>
      rw [infix_pathMarker hp.long (hp.notMem (by decide)) (hp.notMem (by decide))] at hpart
      rw [lower, List.map_append]
      exact (ih hpart).trans (List.suffix_append _ _).isInfix

/-- A text without a slash stays at the front of a text whose paths are hidden. -/
theorem prefix_hidePaths {q : Bytes} (hq : slash ∉ q) (start : Bool) (s : Bytes) :
    q <+: lower (hidePaths start s) ↔ q <+: lower s := by
  refine ⟨(hidePaths_redacts start s).prefix_of hq, fun hlead => ?_⟩
  induction s generalizing q start with
  | nil =>
      rw [hidePaths]
      exact hlead
  | cons b t ih =>
      cases q with
      | nil => exact List.nil_prefix
      | cons c q =>
          rw [List.mem_cons, not_or] at hq
          obtain ⟨rfl, hrest⟩ := List.cons_prefix_cons.mp hlead
          have hb : b ≠ slash := by
            rintro rfl
            exact hq.1 rfl
          rw [hidePaths, if_neg fun h => hb h.2.1]
          exact List.cons_prefix_cons.mpr ⟨rfl, ih hq.2 _ hrest⟩

/-- `q` stands in `rest`, in whatever case, and its front is not hidden. -/
def Shows (before rest q : Bytes) : Prop :=
  ∃ a w r, rest = a ++ w ++ r ∧ lower w = q ∧ ¬ Hidden (before ++ a) (w ++ r)

/-- `q` stands in the text, in whatever case, and its front is not hidden. -/
def Stands (config : SanitizeConfig) (text q : Bytes) : Prop :=
  ∃ a w r, text = a ++ w ++ r ∧ lower w = q ∧ (config.redactPaths = true → ¬ Hidden a (w ++ r))

/-! ## Escaping -/

/-- The last character of an escape. -/
def escapeLetter (c : UInt8) : UInt8 := (escapeControl c).getLast?.getD c

/-- What an escape starts with. -/
def escapeStarts : List Bytes := [ascii "\\", ascii "\\u000", ascii "\\u001"]

theorem escaped_start : ∀ c, Escaped c →
    ∃ before ∈ escapeStarts, escapeControl c = before ++ [escapeLetter c] :=
  escaped_induction (by decide) (by decide) (by decide)

theorem tolower_escapeLetter : ∀ c, Escaped c → tolower (escapeLetter c) = escapeLetter c :=
  escaped_induction (by decide) (by decide) (by decide)

theorem tolower_escaped : ∀ c, Escaped c → tolower c = c :=
  escaped_induction (by decide) (by decide) (by decide)

theorem escaped_not_letter : ∀ c, Escaped c → ¬ (c = space ∨ (0x61 ≤ c ∧ c ≤ 0x7A)) :=
  escaped_induction (by decide) (by decide) (by decide)

theorem tolower_cases (c : UInt8) : tolower c = c ∨ (0x61 ≤ tolower c ∧ tolower c ≤ 0x7A) := by
  rw [tolower]
  split_ifs with hupper
  · rw [Bool.and_eq_true, decide_eq_true_eq, decide_eq_true_eq, UInt8.le_iff_toNat_le,
      UInt8.le_iff_toNat_le] at hupper
    rw [UInt8.le_iff_toNat_le, UInt8.le_iff_toNat_le, UInt8.toNat_add]
    simp only [UInt8.reduceToNat] at hupper ⊢
    omega
  · exact .inl rfl

theorem escaped_of_tolower {c : UInt8} (h : Escaped (tolower c)) : Escaped c := by
  rcases tolower_cases c with heq | hletter
  · rwa [heq] at h
  · exact absurd (.inr hletter) (escaped_not_letter _ h)

theorem escapeControlCharacters_cons (c : UInt8) (t : Bytes) :
    escapeControlCharacters (c :: t) = escapeControl c ++ escapeControlCharacters t :=
  List.flatMap_cons

/-- An escape starts with a backslash. -/
theorem escapeStarts_head : ∀ before ∈ escapeStarts, ∃ r, before = backslash :: r := by
  rintro before hbefore
  simp only [escapeStarts, List.mem_cons, List.not_mem_nil, or_false] at hbefore
  rcases hbefore with rfl | rfl | rfl <;> exact ⟨_, rfl⟩

/-- An escape in lower case, with what follows it. -/
theorem lower_escape {c : UInt8} (hc : Escaped c) (t : Bytes) :
    ∃ before ∈ escapeStarts, lower (escapeControlCharacters (c :: t)) =
      before ++ escapeLetter c :: lower (escapeControlCharacters t) := by
  obtain ⟨before, hbefore, hescape⟩ := escaped_start c hc
  have hlower : ∀ before ∈ escapeStarts, lower before = before := by decide
  refine ⟨before, hbefore, ?_⟩
  have hcons : lower (before ++ [escapeLetter c] ++ escapeControlCharacters t) =
      lower before ++ tolower (escapeLetter c) :: lower (escapeControlCharacters t) := by
    rw [lower, List.map_append, List.map_append, List.append_assoc]
    rfl
  rw [escapeControlCharacters_cons, hescape, hcons, hlower before hbefore,
    tolower_escapeLetter c hc]

theorem lower_not_escaped {c : UInt8} (hc : ¬ Escaped c) (t : Bytes) :
    lower (escapeControlCharacters (c :: t)) =
      tolower c :: lower (escapeControlCharacters t) := by
  rw [Escaped, ne_eq, not_not] at hc
  rw [escapeControlCharacters_cons, hc]
  rfl

/-- At the front of a text, escaping makes no letters and takes none away. -/
theorem prefix_lower_escape {p : Bytes} (hp : ∀ b ∈ p, b = space ∨ (0x61 ≤ b ∧ b ≤ 0x7A))
    (v : Bytes) : p <+: lower (escapeControlCharacters v) ↔ p <+: lower v := by
  induction v generalizing p with
  | nil => rfl
  | cons c t ih =>
      cases p with
      | nil => exact iff_of_true List.nil_prefix List.nil_prefix
      | cons b p =>
          rw [List.forall_mem_cons] at hp
          have hlower : lower (c :: t) = tolower c :: lower t := rfl
          rw [hlower]
          by_cases hc : Escaped c
          · obtain ⟨before, hbefore, hescape⟩ := lower_escape hc t
            obtain ⟨r, rfl⟩ := escapeStarts_head before hbefore
            rw [hescape, List.cons_append, List.cons_prefix_cons, List.cons_prefix_cons,
              tolower_escaped c hc]
            refine iff_of_false ?_ ?_
            · rintro ⟨rfl, -⟩
              exact absurd hp.1 (by decide)
            · rintro ⟨rfl, -⟩
              exact escaped_not_letter b hc hp.1
          · rw [lower_not_escaped hc, List.cons_prefix_cons, List.cons_prefix_cons, ih hp.2]

/-- Behind the start of an escape a pattern starts at its last character or later. -/
theorem infix_behind {p before : Bytes} (hp : IsPhrase p) (hbefore : before ∈ escapeStarts)
    (x : UInt8) (s : Bytes) : p <:+: before ++ x :: s ↔ p <+: x :: s ∨ p <:+: s := by
  have hslash : backslash ∉ p := hp.notMem (by decide)
  have hzero : (0x30 : UInt8) ∉ p := hp.notMem (by decide)
  have hone : (0x31 : UInt8) ∉ p := hp.notMem (by decide)
  -- The `u` of an escape is followed by a digit.
  have hunicode : ∀ s, p <:+: 0x75 :: 0x30 :: s ↔ p <:+: s := by
    intro s
    have happend := infix_append_cons_iff hzero [0x75] s
    rw [List.singleton_append] at happend
    rw [happend, or_iff_right]
    exact fun h => absurd (hp.long.trans h.length_le) (by decide)
  rw [← List.infix_cons_iff]
  simp only [escapeStarts, List.mem_cons, List.not_mem_nil, or_false] at hbefore
  rcases hbefore with rfl | rfl | rfl
  · exact hp.infix_cons hslash _
  · have hstart : ascii "\\u000" ++ x :: s = backslash :: 0x75 :: 0x30 :: 0x30 :: 0x30 :: x :: s :=
      rfl
    rw [hstart, hp.infix_cons hslash, hunicode, hp.infix_cons hzero, hp.infix_cons hzero]
  · have hstart : ascii "\\u001" ++ x :: s = backslash :: 0x75 :: 0x30 :: 0x30 :: 0x31 :: x :: s :=
      rfl
    rw [hstart, hp.infix_cons hslash, hunicode, hp.infix_cons hzero, hp.infix_cons hone]

/-- Escaping makes a pattern where an octet before the rest of it is written with the
pattern's first letter. -/
theorem infix_lower_escape {x : UInt8} {p : Bytes} (hp : IsPhrase (x :: p)) (v : Bytes) :
    x :: p <:+: lower (escapeControlCharacters v) ↔
      x :: p <:+: lower v ∨ ∃ c, Escaped c ∧ escapeLetter c = x ∧ c :: p <:+: lower v := by
  have hrest : ∀ b ∈ p, b = space ∨ (0x61 ≤ b ∧ b ≤ 0x7A) :=
    fun b hb => hp.letter b (List.mem_cons_of_mem x hb)
  induction v with
  | nil =>
      have hnil : lower (escapeControlCharacters []) = [] := rfl
      have hlower : lower [] = [] := rfl
      rw [hnil, hlower, iff_self_or]
      rintro ⟨c, -, -, hpart⟩
      exact absurd hpart.length_le (by simp)
  | cons c t ih =>
      have hlower : lower (c :: t) = tolower c :: lower t := rfl
      rw [hlower]
      by_cases hc : Escaped c
      · obtain ⟨before, hbefore, hescape⟩ := lower_escape hc t
        have hnot : c ∉ x :: p := hp.notMem (escaped_not_letter c hc)
        rw [hescape, infix_behind hp hbefore, propext ih, tolower_escaped c hc, hp.infix_cons hnot,
          List.cons_prefix_cons, prefix_lower_escape hrest]
        constructor
        · rintro (⟨rfl, hlead⟩ | hpart | ⟨b, hb, hletter, hpart⟩)
          · exact .inr ⟨c, hc, rfl, (List.cons_prefix_cons.mpr ⟨rfl, hlead⟩).isInfix⟩
          · exact .inl hpart
          · exact .inr ⟨b, hb, hletter, List.infix_cons hpart⟩
        · rintro (hpart | ⟨b, hb, hletter, hpart⟩)
          · exact .inr (.inl hpart)
          · rw [List.infix_cons_iff, List.cons_prefix_cons] at hpart
            rcases hpart with ⟨rfl, hlead⟩ | hpart
            · exact .inl ⟨hletter.symm, hlead⟩
            · exact .inr (.inr ⟨b, hb, hletter, hpart⟩)
      · rw [lower_not_escaped hc, List.infix_cons_iff, List.cons_prefix_cons,
          prefix_lower_escape hrest, propext ih, List.infix_cons_iff, List.cons_prefix_cons, or_assoc]
        have hsplit : (∃ b, Escaped b ∧ escapeLetter b = x ∧ b :: p <:+: tolower c :: lower t) ↔
            ∃ b, Escaped b ∧ escapeLetter b = x ∧ b :: p <:+: lower t := by
          refine exists_congr fun b => and_congr_right fun hb => and_congr_right fun _ => ?_
          rw [List.infix_cons_iff, or_iff_right]
          intro hlead
          obtain rfl := (List.cons_prefix_cons.mp hlead).1
          exact hc (escaped_of_tolower hb)
        rw [hsplit]

/-- What becomes a pattern when it is escaped. -/
def splitPatterns : List Bytes :=
  [newline :: ascii "ow you are", 8 :: ascii "ypass", 0x0B :: ascii "ypass",
    0x1B :: ascii "ypass", 0x0C :: ascii "orget about", 0x0F :: ascii "orget about",
    0x1F :: ascii "orget about", 0x1D :: ascii "isregard"]

/-- What follows `c` in the texts that start with it. -/
def restsOf (c : UInt8) (texts : List Bytes) : List Bytes :=
  (texts.filter fun text => text.head? = some c).map List.tail

theorem mem_restsOf {c : UInt8} {p : Bytes} {texts : List Bytes} :
    p ∈ restsOf c texts ↔ c :: p ∈ texts := by
  simp only [restsOf, List.mem_map, List.mem_filter, decide_eq_true_eq]
  constructor
  · rintro ⟨text, ⟨htext, hhead⟩, rfl⟩
    obtain ⟨t, rfl⟩ := List.head?_eq_some_iff.mp hhead
    exact htext
  · exact fun h => ⟨c :: p, ⟨h, rfl⟩, rfl⟩

theorem restsOf_splitPatterns :
    ∀ c, Escaped c → restsOf (escapeLetter c) injectionPatterns = restsOf c splitPatterns :=
  escaped_induction (by decide +kernel) (by decide) (by decide)

theorem mem_splitPatterns {c : UInt8} (hc : Escaped c) (p : Bytes) :
    c :: p ∈ splitPatterns ↔ escapeLetter c :: p ∈ injectionPatterns := by
  rw [← mem_restsOf, ← mem_restsOf, restsOf_splitPatterns c hc]

theorem splitPatterns_escaped : ∀ q ∈ splitPatterns, ∃ c p, q = c :: p ∧ Escaped c := by
  intro q hq
  simp only [splitPatterns, List.mem_cons, List.not_mem_nil, or_false] at hq
  rcases hq with rfl | rfl | rfl | rfl | rfl | rfl | rfl | rfl <;>
    exact ⟨_, _, rfl, by decide⟩

/-- Escaping makes a pattern of nothing but the split patterns. -/
theorem contains_escape_iff (v : Bytes) :
    containsInjectionPatterns (escapeControlCharacters v) = true ↔
      containsInjectionPatterns v = true ∨ ∃ q ∈ splitPatterns, q <:+: lower v := by
  rw [containsInjectionPatterns_iff, containsInjectionPatterns_iff]
  constructor
  · rintro ⟨p, hp, hpart⟩
    have hphrase := injectionPatterns_phrase p hp
    obtain ⟨x, p, rfl⟩ := List.exists_cons_of_ne_nil hphrase.ne_nil
    rw [infix_lower_escape hphrase] at hpart
    rcases hpart with hpart | ⟨c, hc, rfl, hpart⟩
    · exact .inl ⟨x :: p, hp, hpart⟩
    · exact .inr ⟨c :: p, (mem_splitPatterns hc p).mpr hp, hpart⟩
  · rintro (⟨p, hp, hpart⟩ | ⟨q, hq, hpart⟩)
    · have hphrase := injectionPatterns_phrase p hp
      obtain ⟨x, p, rfl⟩ := List.exists_cons_of_ne_nil hphrase.ne_nil
      exact ⟨x :: p, hp, (infix_lower_escape hphrase v).mpr (.inl hpart)⟩
    · obtain ⟨c, p, rfl, hc⟩ := splitPatterns_escaped q hq
      have hp := (mem_splitPatterns hc p).mp hq
      refine ⟨escapeLetter c :: p, hp, ?_⟩
      rw [infix_lower_escape (injectionPatterns_phrase _ hp)]
      exact .inr ⟨c, hc, rfl, hpart⟩

/-! ## What is returned -/

theorem contains_visible {config : SanitizeConfig} {text : Bytes}
    (h : containsInjectionPatterns text = false) :
    containsInjectionPatterns (visible config text) = false := by
  rw [visible]
  cases config.redactPaths with
  | false => exact h
  | true =>
      rw [← Bool.not_eq_true, containsInjectionPatterns_iff] at h ⊢
      rw [if_pos rfl]
      rintro ⟨p, hp, hpart⟩
      exact h ⟨p, hp, (hidePaths_redacts true text).infix_of (injectionPatterns_phrase p hp) hpart⟩

theorem splitPatterns_ends : ∀ q ∈ splitPatterns, 6 ≤ q.length ∧ slash ∉ q ∧ lbracket ∉ q ∧
    rbracket ∉ q ∧ q.head? ≠ some space := by
  decide

theorem shows_cons (before : Bytes) (b : UInt8) (t q : Bytes) : Shows before (b :: t) q ↔
    (¬ Hidden before (b :: t) ∧ q <+: lower (b :: t)) ∨ Shows (before ++ [b]) t q := by
  constructor
  · rintro ⟨a, w, r, hsplit, hlower, hshown⟩
    cases a with
    | nil =>
        rw [List.append_nil] at hshown
        rw [List.nil_append] at hsplit
        refine .inl ⟨hsplit ▸ hshown, ?_⟩
        rw [hsplit, ← hlower, lower, lower, List.map_append]
        exact List.prefix_append _ _
    | cons c a =>
        obtain ⟨rfl, rfl⟩ := List.cons.inj hsplit
        rw [List.append_cons] at hshown
        exact .inr ⟨a, w, r, rfl, hlower, hshown⟩
  · rintro (⟨hshown, hlead⟩ | ⟨a, w, r, rfl, hlower, hshown⟩)
    · rw [lower, List.prefix_map_iff] at hlead
      obtain ⟨w, ⟨r, hsplit⟩, hlower⟩ := hlead
      refine ⟨[], w, r, hsplit.symm, hlower.symm, ?_⟩
      rwa [List.append_nil, hsplit]
    · refine ⟨b :: a, w, r, rfl, hlower, ?_⟩
      rwa [List.append_cons]

/-- What stands where nothing is hidden, is left when paths are hidden. -/
theorem infix_redacted {q : Bytes} (hq : q ∈ splitPatterns) (before rest : Bytes) :
    q <:+: lower (redacted before rest) ↔ Shows before rest q := by
  obtain ⟨hlong, hslash, hopen, hclose, hspace⟩ := splitPatterns_ends q hq
  induction rest generalizing before with
  | nil =>
      rw [redacted_nil]
      refine iff_of_false ?_ ?_
      · intro h
        exact absurd (hlong.trans h.length_le) (by decide)
      · rintro ⟨a, w, r, hsplit, rfl, -⟩
        rw [eq_comm, List.append_eq_nil_iff, List.append_eq_nil_iff] at hsplit
        rw [hsplit.1.2] at hlong
        exact absurd hlong (by decide)
  | cons b t ih =>
      rw [shows_cons]
      rcases redacted_cons before b t with ⟨hshown, heq⟩ | ⟨hhidden, hbefore, heq⟩ |
        ⟨hhidden, hbefore, rfl, heq⟩
      · have hfront : q <+: lower (redacted before (b :: t)) ↔
            ¬ Hidden before (b :: t) ∧ q <+: lower (b :: t) := by
          by_cases hbefore : Hidden before (b :: t)
          · -- A path that ends here ends at a space, with which `q` does not start.
            have hb : b = space := by
              by_contra hb
              exact hshown ((hidden_concat before b t).mpr (.inl ⟨hb, hbefore⟩))
            subst hb
            refine iff_of_false ?_ fun h => h.1 hbefore
            rw [heq]
            intro hlead
            cases q with
            | nil => cases hlong
            | cons c q =>
                obtain rfl := (List.cons_prefix_cons.mp hlead).1
                exact hspace rfl
          · rw [redacted, if_neg hbefore, prefix_hidePaths hslash, and_iff_right hbefore]
        rw [← hfront, heq, ← ih]
        exact List.infix_cons_iff
      · rw [heq, ih, or_iff_right]
        exact fun h => h.1 hbefore
      · rw [heq, infix_pathMarker hlong hopen hclose, ih, or_iff_right]
        rintro ⟨-, hlead⟩
        exact not_prefix_cons (by rintro rfl; cases hlong) hslash _ hlead

theorem infix_visible {q : Bytes} (hq : q ∈ splitPatterns) (config : SanitizeConfig) (text : Bytes) :
    q <:+: lower (visible config text) ↔ Stands config text q := by
  rw [visible, Stands]
  cases config.redactPaths with
  | false =>
      simp only [Bool.false_eq_true, if_false, false_imp_iff, and_true]
      rw [lower, List.infix_map_iff]
      constructor
      · rintro ⟨w, ⟨a, r, hsplit⟩, hlower⟩
        exact ⟨a, w, r, hsplit.symm, hlower.symm⟩
      · rintro ⟨a, w, r, hsplit, hlower⟩
        exact ⟨w, ⟨a, r, hsplit.symm⟩, hlower.symm⟩
  | true =>
      simp only [if_true, true_imp_iff]
      rw [← redacted_start, infix_redacted hq]
      rfl

theorem contains_rewritten {config : SanitizeConfig} {text : Bytes}
    (h : containsInjectionPatterns text = false) :
    containsInjectionPatterns (rewritten config text) = false ↔
      config.escapeControlChars = false ∨ ∀ q ∈ splitPatterns, ¬ Stands config text q := by
  have hvisible := @contains_visible config text h
  rw [rewritten]
  cases config.escapeControlChars with
  | false => exact iff_of_true hvisible (.inl rfl)
  | true =>
      rw [if_pos rfl, ← Bool.not_eq_true, contains_escape_iff, hvisible, or_iff_right (by decide),
        or_iff_right (by decide)]
      push Not
      exact forall₂_congr fun q hq => not_congr (infix_visible hq config text)

/-- What is returned without an error has no injection pattern exactly if nothing is
escaped, or no octet whose escape ends with the first letter of a pattern has the rest of
the pattern behind it. -/
theorem sanitize_clean_iff (response : Bytes) (config : SanitizeConfig) :
    ∃ result error, sanitize response config = .ok (result, error) ∧
      ((error = none → containsInjectionPatterns result = false) ↔
        config.escapeControlChars = false ∨
          ∀ text, limited response config = some text → containsInjectionPatterns text = true ∨
            ∀ q ∈ splitPatterns, ¬ Stands config text q) := by
  obtain ⟨result, error, hsanitize, hclean⟩ := sanitize_iff
    (P := fun result error => error = none → containsInjectionPatterns result = false)
    response config (fun _ h => by cases h) fun text hpattern =>
      (forall_prop_of_true rfl).trans (contains_rewritten hpattern)
  refine ⟨result, error, hsanitize, hclean.trans ?_⟩
  by_cases hescape : config.escapeControlChars = false
  · exact iff_of_true (fun text _ => .inr (.inl hescape)) (.inl hescape)
  · rw [or_iff_right hescape]
    exact forall₂_congr fun text _ => or_congr_right (or_iff_right hescape)

/-- A line break is written with an `n`, which makes a pattern of what follows it. -/
theorem sanitize_makes_pattern :
    ∃ result, sanitize (newline :: ascii "ow you are") {} = .ok (result, none) ∧
      containsInjectionPatterns result = true := by
  refine ⟨ascii "\\now you are", ?_, by decide +kernel⟩
  rfl

end ResponseSanitizer

end McpToolkit
