import McpToolkit.Base.Case
import McpToolkit.Json.Decode
import McpToolkit.Path.Validator
/-!
# Encoded dots

What the checks on the text of a path find of the ways to write two dots next to each
other, with and without percent escapes.
-/

namespace McpToolkit

namespace PathValidator

/-! ## What the checks compute -/

/-- One of the listed patterns occurs. -/
def HasEncodedPattern (path : Bytes) : Prop := ∃ pattern ∈ encodedPatterns, pattern <:+: path

/-- After a search that has failed there is no other one. -/
theorem dotsPass_eq (path : Bytes) (pos dotCount : Nat) : dotsPass path (pos, dotCount) =
    match find path (ascii "%2e") pos with
    | none => .ok (.done false)
    | some i =>
        if dotCount + 1 ≥ 2 then .ok (.done true) else .ok (.next (i + 1, dotCount + 1)) := by
  have hfirst : findFrom path (ascii "%2e") (some pos) = find path (ascii "%2e") pos := rfl
  rw [dotsPass, hfirst]
  cases find path (ascii "%2e") pos with
  | none => rfl
  | some i => rfl

/-- What the loop returns from a state: whether two dots that are spelled `%2e` have been
passed or are still to come. -/
def twoDots (path : Bytes) (state : Nat × Nat) : Bool :=
  2 ≤ state.2 + occurrences (ascii "%2e") (path.drop state.1)

theorem dotsPass_meets (path : Bytes) (state : Nat × Nat) (hcount : state.2 ≤ 1) :
    PassMeets id (fun state : Nat × Nat => state.2 ≤ 1) (fun state => path.length + 1 - state.1)
      (dotsPass path) (fun state found => found = twoDots path state) state := by
  obtain ⟨pos, dotCount⟩ := state
  have hpattern : ascii "%2e" ≠ [] := by decide
  have hpass := dotsPass_eq path pos dotCount
  dsimp only at hcount
  cases hfind : find path (ascii "%2e") pos with
  | none =>
      have hleft := occurrences_of_find_none hpattern hfind
      rw [hfind] at hpass
      refine .done _ _ _ hpass (decide_eq_false ?_).symm
      dsimp only
      omega
  | some i =>
      have hleft := occurrences_of_find_some hpattern hfind
      obtain ⟨hpos, hi, -, -⟩ := find_eq_some.mp hfind
      rw [hfind] at hpass
      dsimp only at hpass
      by_cases hlast : dotCount + 1 ≥ 2
      · rw [if_pos hlast] at hpass
        refine .done _ _ _ hpass (decide_eq_true ?_).symm
        dsimp only
        omega
      · rw [if_neg hlast] at hpass
        refine .next _ _ _ (j := (i + 1, dotCount + 1)) hpass ?_ ?_ ?_
        · dsimp only
          omega
        · dsimp only
          omega
        · rintro found rfl
          simp only [twoDots]
          rw [hleft, Nat.add_assoc, Nat.add_comm 1]

/-- The loop ends, and it has counted the dots that are spelled `%2e`. -/
theorem dotsLoop_eq (path : Bytes) : loop (dotsPass path) .passes (path.length + 2) (0, 0) =
    .ok (decide (2 ≤ occurrences (ascii "%2e") path)) := by
  have hloop := loop_eq (e := Fault.passes) id _ _ (dotsPass_meets path) (i := (0, 0))
    (n := path.length + 2) (Nat.zero_le 1) (Nat.lt_succ_self _)
  rwa [twoDots, List.drop_zero, Nat.zero_add] at hloop

theorem containsEncodedTraversal_eq (path : Bytes) : ∃ found,
    containsEncodedTraversal path = .ok found ∧
      (found = true ↔ HasEncodedPattern path ∨ 2 ≤ occurrences (ascii "%2e") path) := by
  unfold containsEncodedTraversal
  split
  · next hany =>
      refine ⟨true, rfl, fun _ => .inl ?_, fun _ => rfl⟩
      simpa [HasEncodedPattern] using hany
  · next hany =>
      refine ⟨_, dotsLoop_eq path, ?_⟩
      have hnone : ¬ HasEncodedPattern path := by simpa [HasEncodedPattern] using hany
      rw [decide_eq_true_eq]
      exact ⟨.inr, fun h => h.resolve_left hnone⟩

/-! ## The case of the digits -/

/-- The text with the letters of some percent escapes in another case. -/
inductive Respelled : Bytes → Bytes → Prop where
  | nil : Respelled [] []
  | escape {a b a' b' : UInt8} {t t' : Bytes} : isHex a → isHex b → tolower a = tolower a' →
      tolower b = tolower b' → Respelled t t' →
      Respelled (percent :: a :: b :: t) (percent :: a' :: b' :: t')
  | cons (b : UInt8) {t t' : Bytes} : Respelled t t' → Respelled (b :: t) (b :: t')

theorem Respelled.lower_eq {path path' : Bytes} (h : Respelled path path') :
    lower path = lower path' := by
  induction h with
  | nil => rfl
  | escape _ _ ha hb _ ih =>
      simp only [lower, List.map_cons] at ih ⊢
      rw [ha, hb, ih]
  | cons b _ ih =>
      simp only [lower, List.map_cons] at ih ⊢
      rw [ih]

/-- All listed patterns in lower case. -/
def lowerPatterns : List Bytes := ["%2e%2e", "%2f", "%5c", "%252e", "%252f"].map ascii

/-- The list has every spelling of its patterns. -/
theorem mem_encodedPatterns {pattern : Bytes} :
    pattern ∈ encodedPatterns ↔ ∃ low ∈ lowerPatterns, pattern ∈ spellingsOf low := by
  have hall : ∀ w ∈ encodedPatterns, w ∈ lowerPatterns.flatMap spellingsOf := by decide
  have hall' : ∀ w ∈ lowerPatterns.flatMap spellingsOf, w ∈ encodedPatterns := by decide +kernel
  rw [← List.mem_flatMap]
  exact ⟨hall pattern, hall' pattern⟩

theorem hasEncodedPattern_iff {path : Bytes} :
    HasEncodedPattern path ↔ ∃ low ∈ lowerPatterns, low <:+: lower path := by
  simp only [HasEncodedPattern, mem_encodedPatterns, infix_lower]
  constructor
  · rintro ⟨w, ⟨low, hlow, hw⟩, hpart⟩
    exact ⟨low, hlow, w, hw, hpart⟩
  · rintro ⟨low, hlow, w, hw, hpart⟩
    exact ⟨w, ⟨low, hlow, hw⟩, hpart⟩

/-- The number of escapes for a dot, in either spelling. -/
def encodedDots (path : Bytes) : Nat :=
  occurrences (ascii "%2e") path + occurrences (ascii "%2E") path

theorem spellingsOf_dot : spellingsOf (ascii "%2e") = [ascii "%2e", ascii "%2E"] := by
  decide

theorem dot_prefix_lower (path : Bytes) :
    ascii "%2e" <+: lower path ↔ ascii "%2e" <+: path ∨ ascii "%2E" <+: path := by
  rw [prefix_lower, spellingsOf_dot]
  simp

theorem occurrences_lower (path : Bytes) :
    occurrences (ascii "%2e") (lower path) = encodedDots path := by
  rw [encodedDots]
  induction path with
  | nil => rfl
  | cons b t ih =>
      have hlower : lower (b :: t) = tolower b :: lower t := rfl
      have hlead := dot_prefix_lower (b :: t)
      rw [hlower] at hlead ⊢
      rw [occurrences_cons, occurrences_cons, occurrences_cons, ih]
      by_cases hsmall : ascii "%2e" <+: b :: t
      · have hlarge : ¬ ascii "%2E" <+: b :: t := by
          intro h
          have heq := (List.prefix_of_prefix_length_le hsmall h (by decide)).eq_of_length
            (by decide)
          exact absurd heq (by decide)
        rw [if_pos (hlead.mpr (.inl hsmall)), if_pos hsmall, if_neg hlarge]
        omega
      by_cases hlarge : ascii "%2E" <+: b :: t
      · rw [if_pos (hlead.mpr (.inr hlarge)), if_neg hsmall, if_pos hlarge]
        omega
      · rw [if_neg fun h => (hlead.mp h).elim hsmall hlarge, if_neg hsmall, if_neg hlarge]
        omega

theorem encodedDots_congr {path path' : Bytes} (h : Respelled path path') :
    encodedDots path = encodedDots path' := by
  rw [← occurrences_lower, ← occurrences_lower, h.lower_eq]

/-- The escape `%2e` with this as its last digit. -/
def dotEscape (e : UInt8) : Bytes := [percent, 0x32, e]

section spelling

variable {e : UInt8} (he : tolower e = lowerE)
include he

theorem occurrences_dotEscape (t : Bytes) :
    occurrences (dotEscape e) (dotEscape e ++ t) = occurrences (dotEscape e) t + 1 := by
  have hne : percent ≠ e := by
    rintro rfl
    exact absurd he (by decide)
  have hdigit : ¬ dotEscape e <+: 0x32 :: e :: t := fun h =>
    absurd (List.cons_prefix_cons.mp h).1 (by decide)
  have hletter : ¬ dotEscape e <+: e :: t := fun h => hne (List.cons_prefix_cons.mp h).1
  have hstart : dotEscape e <+: dotEscape e ++ t := List.prefix_append _ t
  have hcons : dotEscape e ++ t = percent :: 0x32 :: e :: t := rfl
  rw [hcons] at hstart ⊢
  rw [occurrences_cons, if_pos hstart, occurrences_cons_of_not hdigit,
    occurrences_cons_of_not hletter]

theorem lower_dotEscape : lower (dotEscape e) = ascii "%2e" := by
  rw [lower, dotEscape, List.map_cons, List.map_cons, List.map_singleton, he]
  rfl

/-- All escapes for a dot can be given one spelling. -/
theorem exists_respelled (path : Bytes) :
    ∃ path', Respelled path path' ∧ occurrences (dotEscape e) path' = encodedDots path := by
  rw [← occurrences_lower]
  induction hlength : path.length using Nat.strong_induction_on generalizing path with
  | _ n ih =>
      subst hlength
      by_cases hdot : ascii "%2e" <+: lower path
      · obtain ⟨w, hw, r, rfl⟩ := prefix_lower.mp hdot
        obtain ⟨c, hc, hhex, rfl⟩ : ∃ c, tolower c = lowerE ∧ isHex c ∧ w = dotEscape c := by
          rw [spellingsOf_dot] at hw
          rcases List.mem_cons.mp hw with rfl | hw
          · exact ⟨lowerE, rfl, rfl, rfl⟩
          · exact ⟨upperE, rfl, rfl, List.mem_singleton.mp hw⟩
        obtain ⟨r', hr', hcount⟩ := ih r.length (by simp [dotEscape]; omega) r rfl
        refine ⟨dotEscape e ++ r', .escape rfl hhex rfl (hc.trans he.symm) hr', ?_⟩
        have hlower : lower (dotEscape c ++ r) = dotEscape lowerE ++ lower r := by
          rw [lower, List.map_append, ← lower, lower_dotEscape hc]
          rfl
        have hsmall := occurrences_dotEscape (e := lowerE) rfl (lower r)
        rw [occurrences_dotEscape he, hcount, hlower]
        exact hsmall.symm
      · cases path with
        | nil => exact ⟨[], .nil, rfl⟩
        | cons b t =>
            obtain ⟨t', ht', hcount⟩ := ih t.length (Nat.lt_succ_self _) t rfl
            have hnot : ¬ dotEscape e <+: b :: t' := by
              intro h
              have hlower := h.map tolower
              rw [← lower, ← lower, lower_dotEscape he, ← (Respelled.cons b ht').lower_eq] at hlower
              exact hdot hlower
            refine ⟨b :: t', .cons b ht', ?_⟩
            rw [occurrences_cons_of_not hnot, hcount]
            exact (occurrences_cons_of_not hdot).symm

end spelling

/-- The loop ends on every path.  The case of the digits does not matter to it if and only
if a listed pattern occurs or at most one dot is written as an escape. -/
theorem hexCase_irrelevant_iff (path : Bytes) :
    (∃ found, containsEncodedTraversal path = .ok found) ∧
      ((∀ path', Respelled path path' →
          containsEncodedTraversal path' = containsEncodedTraversal path) ↔
        HasEncodedPattern path ∨
          occurrences (ascii "%2e") path + occurrences (ascii "%2E") path ≤ 1) := by
  obtain ⟨found, hfound, hiff⟩ := containsEncodedTraversal_eq path
  refine ⟨⟨found, hfound⟩, fun hsame => ?_, fun h path' hrespelled => ?_⟩
  · by_contra hnot
    rw [not_or] at hnot
    obtain ⟨small, hsmall, hsmallDots⟩ := exists_respelled (e := lowerE) rfl path
    obtain ⟨large, hlarge, hlargeDots⟩ := exists_respelled (e := upperE) rfl path
    obtain ⟨_, hfoundSmall, hiffSmall⟩ := containsEncodedTraversal_eq small
    obtain ⟨_, hfoundLarge, hiffLarge⟩ := containsEncodedTraversal_eq large
    have hdots : 2 ≤ encodedDots path := Nat.lt_of_not_le hnot.2
    -- all of them count in one spelling and none in the other
    have htrue : 2 ≤ occurrences (ascii "%2e") small := hdots.trans hsmallDots.ge
    have hfalse : occurrences (ascii "%2e") large = 0 := by
      have hall : occurrences (ascii "%2e") large + occurrences (ascii "%2E") large =
          encodedDots path := (encodedDots_congr hlarge).symm
      have hupper : occurrences (ascii "%2E") large = encodedDots path := hlargeDots
      omega
    have hnone : ¬ HasEncodedPattern large := by
      rw [hasEncodedPattern_iff, ← hlarge.lower_eq, ← hasEncodedPattern_iff]
      exact hnot.1
    have hboth := (hsame small hsmall).trans (hsame large hlarge).symm
    rw [hfoundSmall, hfoundLarge, Except.ok.injEq] at hboth
    rw [hboth, hiffLarge] at hiffSmall
    have := hiffSmall.mpr (.inr htrue)
    exact this.elim hnone (by omega)
  · obtain ⟨found', hfound', hiff'⟩ := containsEncodedTraversal_eq path'
    have hpattern : HasEncodedPattern path ↔ HasEncodedPattern path' := by
      rw [hasEncodedPattern_iff, hasEncodedPattern_iff, hrespelled.lower_eq]
    have hdots := encodedDots_congr hrespelled
    rw [encodedDots, encodedDots] at hdots
    rw [hfound, hfound', Except.ok.injEq, Bool.eq_iff_iff, hiff, hiff', ← hpattern]
    rcases h with h | h
    · exact ⟨fun _ => .inl h, fun _ => .inl h⟩
    · exact or_congr_right ⟨fun h' => by omega, fun h' => by omega⟩

/-- Two encoded dots that are apart are found in lower case only. -/
theorem hexCase_matters :
    Respelled (ascii "%2ea%2e") (ascii "%2Ea%2E") ∧
      containsEncodedTraversal (ascii "%2ea%2e") = .ok true ∧
      containsEncodedTraversal (ascii "%2Ea%2E") = .ok false := by
  refine ⟨?_, rfl, rfl⟩
  exact .escape rfl rfl rfl rfl (.cons _ (.escape rfl rfl rfl rfl .nil))

/-! ## Two dots -/

/-- The text with each percent escape replaced by the octet that it stands for. -/
def percentDecode : Bytes → Bytes
  | a :: b :: c :: t =>
      if a = percent ∧ isHex b ∧ isHex c then
        (hexValue b * 16 + hexValue c).toUInt8 :: percentDecode t
      else a :: percentDecode (b :: c :: t)
  | a :: t => a :: percentDecode t
  | [] => []

/-- The ways to write a dot. -/
def dots : List Bytes := [ascii ".", ascii "%2e", ascii "%2E"]

theorem percentDecode_cons {b : UInt8} (hb : b ≠ percent) (t : Bytes) :
    percentDecode (b :: t) = b :: percentDecode t := by
  match t with
  | [] => rfl
  | [_] => rfl
  | _ :: _ :: _ => rw [percentDecode, if_neg fun h => hb h.1]

theorem percentDecode_dot {u : Bytes} (hu : u ∈ dots) (t : Bytes) :
    percentDecode (u ++ t) = point :: percentDecode t := by
  simp only [dots, List.mem_cons, List.not_mem_nil, or_false] at hu
  rcases hu with rfl | rfl | rfl
  · exact percentDecode_cons (by decide) t
  · rfl
  · rfl

/-- A hexadecimal digit is a spelling of the digit that has its value. -/
theorem tolower_of_isHex : ∀ c, isHex c = true → tolower c = hexDigit (hexValue c).toUInt8 :=
  octets_forall (by decide +kernel)

theorem eq_of_hexValue_two {b : UInt8} (h : isHex b) (hvalue : hexValue b = 2) : b = 0x32 := by
  have hlower : tolower b = 0x32 := by
    rw [tolower_of_isHex b h, hvalue]
    rfl
  have hspellings : spellings 0x32 = [0x32] := by decide
  rwa [← mem_spellings, hspellings, List.mem_singleton] at hlower

theorem eq_of_hexValue_fourteen {c : UInt8} (h : isHex c) (hvalue : hexValue c = 14) :
    c = lowerE ∨ c = upperE := by
  have hlower : tolower c = lowerE := by
    rw [tolower_of_isHex c h, hvalue]
    rfl
  have hspellings : spellings lowerE = [lowerE, upperE] := by decide
  rwa [← mem_spellings, hspellings, List.mem_cons, List.mem_singleton] at hlower

/-- The escapes for a dot. -/
theorem dotEscape_mem {b c : UInt8} (hb : isHex b) (hc : isHex c)
    (h : (hexValue b * 16 + hexValue c).toUInt8 = point) : [percent, b, c] ∈ dots := by
  have hbLt := hexValue_lt hb
  have hcLt := hexValue_lt hc
  have hvalue : (hexValue b * 16 + hexValue c) % 256 = 46 := by
    have hnat := congrArg UInt8.toNat h
    rwa [Nat.toUInt8, UInt8.toNat_ofNat'] at hnat
  obtain rfl := eq_of_hexValue_two hb (by omega)
  rcases eq_of_hexValue_fourteen hc (by omega) with rfl | rfl <;> decide

/-- A text that decodes to a dot and more starts with a way to write a dot. -/
theorem percentDecode_eq_point {path t : Bytes} (h : percentDecode path = point :: t) :
    ∃ u ∈ dots, ∃ r, path = u ++ r ∧ percentDecode r = t := by
  have hpoint : [point] ∈ dots := by decide
  fun_cases percentDecode path with
  | case1 a b c r hescape =>
      rw [percentDecode, if_pos hescape] at h
      obtain ⟨rfl, hb, hc⟩ := hescape
      obtain ⟨hvalue, hr⟩ := List.cons.inj h
      exact ⟨_, dotEscape_mem hb hc hvalue, r, rfl, hr⟩
  | case2 a b c r hescape =>
      rw [percentDecode, if_neg hescape] at h
      obtain ⟨rfl, hr⟩ := List.cons.inj h
      exact ⟨_, hpoint, b :: c :: r, rfl, hr⟩
  | case3 a r hshort =>
      rw [percentDecode] at h
      · obtain ⟨rfl, hr⟩ := List.cons.inj h
        exact ⟨_, hpoint, r, rfl, hr⟩
      · exact hshort
  | case4 => cases h

theorem traversal_prefix_decode (path : Bytes) :
    ascii ".." <+: percentDecode path ↔ ∃ u ∈ dots, ∃ v ∈ dots, u ++ v <+: path := by
  constructor
  · rintro ⟨t, ht⟩
    obtain ⟨u, hu, r, rfl, hr⟩ := percentDecode_eq_point ht.symm
    obtain ⟨v, hv, r', rfl, -⟩ := percentDecode_eq_point hr
    exact ⟨u, hu, v, hv, r', List.append_assoc u v r'⟩
  · rintro ⟨u, hu, v, hv, r, rfl⟩
    rw [List.append_assoc, percentDecode_dot hu, percentDecode_dot hv]
    exact ⟨percentDecode r, rfl⟩

/-- Two ways to write a dot stand next to each other. -/
def HasDots (path : Bytes) : Prop := ∃ u ∈ dots, ∃ v ∈ dots, u ++ v <:+: path

theorem hasDots_cons (b : UInt8) (t : Bytes) :
    HasDots (b :: t) ↔ (∃ u ∈ dots, ∃ v ∈ dots, u ++ v <+: b :: t) ∨ HasDots t := by
  simp only [HasDots, List.infix_cons_iff]
  constructor
  · rintro ⟨u, hu, v, hv, h | h⟩
    · exact .inl ⟨u, hu, v, hv, h⟩
    · exact .inr ⟨u, hu, v, hv, h⟩
  · rintro (⟨u, hu, v, hv, h⟩ | ⟨u, hu, v, hv, h⟩)
    · exact ⟨u, hu, v, hv, .inl h⟩
    · exact ⟨u, hu, v, hv, .inr h⟩

/-- No way to write a dot starts with a hexadecimal digit. -/
theorem hasDots_digit {b : UInt8} (hb : isHex b) (t : Bytes) : HasDots (b :: t) ↔ HasDots t := by
  rw [hasDots_cons]
  refine or_iff_right ?_
  rintro ⟨u, hu, v, -, h⟩
  simp only [dots, List.mem_cons, List.not_mem_nil, or_false] at hu
  rcases hu with rfl | rfl | rfl
  all_goals
    obtain rfl := (List.cons_prefix_cons.mp h).1
    exact absurd hb (by decide)

/-- The decoded text has two dots next to each other where the path has two of the ways to
write them next to each other. -/
theorem traversal_infix_decode (path : Bytes) :
    ascii ".." <:+: percentDecode path ↔ HasDots path := by
  induction path using percentDecode.induct with
  | case1 a b c t hescape ih =>
      have hlead := traversal_prefix_decode (a :: b :: c :: t)
      rw [percentDecode, if_pos hescape] at hlead ⊢
      rw [List.infix_cons_iff, hlead, ih, hasDots_cons, hasDots_digit hescape.2.1,
        hasDots_digit hescape.2.2]
  | case2 a b c t hescape ih =>
      have hlead := traversal_prefix_decode (a :: b :: c :: t)
      rw [percentDecode, if_neg hescape] at hlead ⊢
      rw [List.infix_cons_iff, hlead, ih, hasDots_cons a]
  | case3 a t hshort ih =>
      have hlead := traversal_prefix_decode (a :: t)
      rw [percentDecode.eq_2 a t hshort] at hlead ⊢
      rw [List.infix_cons_iff, hlead, ih, hasDots_cons]
  | case4 =>
      refine iff_of_false (by decide) ?_
      rintro ⟨u, hu, v, -, h⟩
      obtain ⟨hnil, -⟩ := List.append_eq_nil_iff.mp (List.infix_nil.mp h)
      subst hnil
      exact absurd hu (by decide)

/-! ## What is caught -/

/-- The path is recognised, and with it refused by every validator. -/
def Caught (path : Bytes) : Prop :=
  (containsTraversalSequences path = true ∨ containsEncodedTraversal path = .ok true) ∧
    ∀ (weaklyCanonical : Bytes → Except Bytes Bytes) (v : PathValidator),
      ∃ message, isSafePath weaklyCanonical v path = .ok (some message)

/-- A literal dot next to an encoded one. -/
def mixedDots : List Bytes := [ascii ".%2e", ascii ".%2E", ascii "%2e.", ascii "%2E."]

theorem isSafePath_refuses {path : Bytes}
    (h : containsTraversalSequences path = true ∨ containsEncodedTraversal path = .ok true)
    (weaklyCanonical : Bytes → Except Bytes Bytes) (v : PathValidator) :
    ∃ message, isSafePath weaklyCanonical v path = .ok (some message) := by
  unfold isSafePath
  split
  · exact ⟨_, rfl⟩
  split
  · exact ⟨_, rfl⟩
  split
  · exact ⟨_, rfl⟩
  · next htraversal =>
      rw [h.resolve_left htraversal]
      exact ⟨_, rfl⟩

theorem containsTraversalSequences_iff (path : Bytes) : containsTraversalSequences path = true ↔
    ascii ".." <:+: path ∨ ascii "~/" <:+: path := by
  have hlonger : ascii "..\\" <:+: path → ascii ".." <:+: path :=
    (List.prefix_append (ascii "..") [backslash]).isInfix.trans
  simp only [containsTraversalSequences, Bool.or_eq_true, decide_eq_true_eq]
  tauto

/-- What gives a path away. -/
theorem caught_iff (path : Bytes) : Caught path ↔ ascii ".." <:+: path ∨ ascii "~/" <:+: path ∨
    HasEncodedPattern path ∨ 2 ≤ occurrences (ascii "%2e") path := by
  obtain ⟨found, hfound, hiff⟩ := containsEncodedTraversal_eq path
  have hchecks : containsTraversalSequences path = true ∨ containsEncodedTraversal path = .ok true ↔
      ascii ".." <:+: path ∨ ascii "~/" <:+: path ∨ HasEncodedPattern path ∨
        2 ≤ occurrences (ascii "%2e") path := by
    rw [containsTraversalSequences_iff, hfound, Except.ok.injEq, hiff, or_assoc]
  rw [← hchecks, Caught]
  exact and_iff_left_of_imp isSafePath_refuses

theorem hasDots_cases {path : Bytes} (h : HasDots path) : ascii ".." <:+: path ∨
    (∃ pattern ∈ mixedDots, pattern <:+: path) ∨ HasEncodedPattern path := by
  have hall : ∀ u ∈ dots, ∀ v ∈ dots,
      u ++ v = ascii ".." ∨ u ++ v ∈ mixedDots ∨ u ++ v ∈ encodedPatterns := by decide
  obtain ⟨u, hu, v, hv, hpart⟩ := h
  rcases hall u hu v hv with heq | hmixed | hencoded
  · exact .inl (heq ▸ hpart)
  · exact .inr (.inl ⟨_, hmixed, hpart⟩)
  · exact .inr (.inr ⟨_, hencoded, hpart⟩)

theorem hasDots_of_mixed {path pattern : Bytes} (hpattern : pattern ∈ mixedDots)
    (h : pattern <:+: path) : HasDots path := by
  have hall : ∀ pattern ∈ mixedDots, ∃ u ∈ dots, ∃ v ∈ dots, pattern = u ++ v := by
    decide
  obtain ⟨u, hu, v, hv, rfl⟩ := hall pattern hpattern
  exact ⟨u, hu, v, hv, h⟩

/-- Two dots next to each other, literal and encoded ones in any mix, are caught if and only
if no literal one stands next to an encoded one or something else gives the path away. -/
theorem encodedTraversal_caught_iff (path : Bytes) :
    (ascii ".." <:+: percentDecode path → Caught path) ↔
      (∀ pattern ∈ mixedDots, ¬ pattern <:+: path) ∨ ascii ".." <:+: path ∨
        ascii "~/" <:+: path ∨ HasEncodedPattern path ∨
        2 ≤ occurrences (ascii "%2e") path := by
  rw [traversal_infix_decode, caught_iff]
  constructor
  · intro h
    by_cases hmixed : ∃ pattern ∈ mixedDots, pattern <:+: path
    · obtain ⟨pattern, hpattern, hpart⟩ := hmixed
      exact .inr (h (hasDots_of_mixed hpattern hpart))
    · exact .inl fun pattern hpattern hpart => hmixed ⟨pattern, hpattern, hpart⟩
  · rintro (hnone | hcaught) hdots
    · rcases hasDots_cases hdots with hliteral | ⟨pattern, hpattern, hpart⟩ | hencoded
      · exact .inl hliteral
      · exact absurd hpart (hnone pattern hpattern)
      · exact .inr (.inr (.inl hencoded))
    · exact hcaught

/-- A literal dot in front of an encoded one passes the checks, and a disk that has the
file of this name below the base lets it through. -/
theorem encodedTraversal_missed :
    ascii ".." <:+: percentDecode (ascii ".%2e/secret") ∧
      containsTraversalSequences (ascii ".%2e/secret") = false ∧
      containsEncodedTraversal (ascii ".%2e/secret") = .ok false ∧
      isSafePath (fun path => .ok path)
        (({} : PathValidator).configure { baseDirectory := ascii "/documents/" })
        (ascii ".%2e/secret") = .ok none := by
  decide +kernel

end PathValidator

end McpToolkit
