import McpToolkit.Json.Tree
/-!
# No text is shorter

A value has a text without white space that escapes only what it must, in the way of the
builder.  No text that decodes to the value is shorter than this one.
-/

namespace McpToolkit

/-- The content of a string with its escapes. -/
def escapeText (s : Bytes) : Bytes := s.flatMap escapeByte

def memberJsonText (key text : Bytes) : Bytes := quote :: escapeText key ++ [quote, colon] ++ text

mutual

/-- The shortest text of a value. -/
def Json.text : Json → Bytes
  | .null => ascii "null"
  | .bool b => boolText b
  | .int n => toDecimal n
  | .number literal => literal
  | .string s => quote :: escapeText s ++ [quote]
  | .array elements => arrayText (Json.texts elements)
  | .object members => objectText (Json.memberTexts members)

def Json.texts : List Json → List Bytes
  | [] => []
  | j :: js => j.text :: Json.texts js

def Json.memberTexts : List (Bytes × Json) → List Bytes
  | [] => []
  | (key, j) :: ms => memberJsonText key j.text :: Json.memberTexts ms

end

theorem Json.texts_eq (js : List Json) : Json.texts js = js.map Json.text := by
  induction js with
  | nil => rfl
  | cons j js ih => rw [Json.texts, ih, List.map_cons]

theorem Json.memberTexts_eq (ms : List (Bytes × Json)) :
    Json.memberTexts ms = ms.map fun m => memberJsonText m.1 m.2.text := by
  induction ms with
  | nil => rfl
  | cons m ms ih => rw [Json.memberTexts, ih, List.map_cons]

/-! ## Integers -/

theorem natFrom_lt {ds : Bytes} (h : ∀ b ∈ ds, isdigit b) :
    ∀ n, natFrom n ds < (n + 1) * 10 ^ ds.length := by
  induction ds with
  | nil =>
      intro n
      change n < (n + 1) * 10 ^ 0
      omega
  | cons b ds ih =>
      intro n
      rw [List.forall_mem_cons] at h
      have hdigit := digitValue_le h.1
      rw [natFrom_cons, List.length_cons]
      calc natFrom (n * 10 + digitValue b) ds
          < (n * 10 + digitValue b + 1) * 10 ^ ds.length := ih h.2 _
        _ ≤ (n + 1) * 10 * 10 ^ ds.length := Nat.mul_le_mul_right _ (by omega)
        _ = (n + 1) * 10 ^ (ds.length + 1) := by
            rw [Nat.pow_succ, Nat.mul_comm (10 ^ ds.length), Nat.mul_assoc]

theorem decimal_length_le {k : Nat} : ∀ {n : Nat}, n < 10 ^ (k + 1) →
    (decimal n).length ≤ k + 1 := by
  induction k with
  | zero =>
      intro n hn
      rw [decimal_of_lt (by simpa using hn)]
      exact le_rfl
  | succ k ih =>
      intro n hn
      by_cases h : n < 10
      · rw [decimal_of_lt h, List.length_singleton]
        omega
      · have hdiv : n / 10 < 10 ^ (k + 1) := by
          rw [Nat.pow_succ] at hn
          exact Nat.div_lt_of_lt_mul (by omega)
        rw [decimal_of_le (by omega), List.length_append, List.length_singleton]
        exact Nat.succ_le_succ (ih hdiv)

/-- Without leading zeros a numeral is not shorter. -/
theorem Digits.decimal_length_le (d : Digits) :
    (decimal (natFrom 0 d.text)).length ≤ d.text.length := by
  have hlt := natFrom_lt d.digit 0
  have hpos : 0 < d.text.length := List.length_pos_iff.mpr d.ne_nil
  obtain ⟨k, hk⟩ := Nat.exists_eq_succ_of_ne_zero hpos.ne'
  rw [Nat.zero_add, Nat.one_mul, hk] at hlt
  rw [hk]
  exact McpToolkit.decimal_length_le hlt

theorem Number.json_length_le (n : Number) : n.json.text.length ≤ n.text.length := by
  rw [Number.json]
  cases hn : n.toInt? with
  | none => exact le_rfl
  | some k =>
      obtain ⟨htext, rfl⟩ := Number.text_of_toInt? hn
      have hle := n.int.decimal_length_le
      have hnat : ∀ N : Nat, (toDecimal (-(N : Int))).length ≤ (decimal N).length + 1 := by
        intro N
        cases N with
        | zero => exact Nat.le_succ _
        | succ N => exact (List.length_cons).le
      rw [htext, List.length_append]
      cases n.negative with
      | false => exact hle.trans (Nat.le_add_left _ _)
      | true =>
          have hneg := hnat (natFrom 0 n.int.text)
          simp only [if_true, List.length_singleton]
          rw [Json.text]
          omega

/-! ## Strings -/

theorem escapeText_append (s t : Bytes) : escapeText (s ++ t) = escapeText s ++ escapeText t :=
  List.flatMap_append

theorem escapeText_cons (b : UInt8) (s : Bytes) : escapeText (b :: s) = escapeByte b ++ escapeText s :=
  List.flatMap_cons

theorem escapeByte_length_le (b : UInt8) : (escapeByte b).length ≤ 6 := by
  unfold escapeByte
  split_ifs <;> simp

theorem escapeByte_plain {b : UInt8} (h : isStrChar b) : escapeByte b = [b] := by
  rw [← escapeChar_text, escapeChar, dif_pos h]
  rfl

theorem escapeText_singleton (b : UInt8) : escapeText [b] = escapeByte b := List.append_nil _

theorem escapeText_plain {s : Bytes} (h : ∀ b ∈ s, isStrChar b) : escapeText s = s := by
  induction s with
  | nil => rfl
  | cons b s ih =>
      rw [List.forall_mem_cons] at h
      rw [escapeText, List.flatMap_cons, escapeByte_plain h.1]
      exact congrArg (b :: ·) (ih h.2)

theorem isStrChar_high {n : Nat} (h : 0x80 ≤ n) (h' : n < 256) : isStrChar n.toUInt8 := by
  have hall : ∀ n < 256, 0x80 ≤ n → isStrChar n.toUInt8 = true := by decide +kernel
  exact hall n h' h

/-- A code unit is written with six octets. -/
theorem escapeText_utf8_le {n : Nat} (h : n < 0x10000) : (escapeText (utf8 n)).length ≤ 6 := by
  unfold utf8
  split_ifs with h₁ h₂
  · rw [escapeText_singleton]
    exact escapeByte_length_le _
  · rw [escapeText_plain]
    · simp
    · simp only [List.forall_mem_cons]
      exact ⟨isStrChar_high (by omega) (by omega), isStrChar_high (by omega) (by omega),
        List.forall_mem_nil _⟩
  · rw [escapeText_plain]
    · simp
    · simp only [List.forall_mem_cons]
      exact ⟨isStrChar_high (by omega) (by omega), isStrChar_high (by omega) (by omega),
        isStrChar_high (by omega) (by omega), List.forall_mem_nil _⟩

/-- A pair is written with twelve. -/
theorem escapeText_pair_le {high low : Nat} (hhigh : isHighSurrogate high)
    (hlow : isLowSurrogate low) : (escapeText (utf8 (surrogatePair high low))).length ≤ 12 := by
  have hge := le_surrogatePair high low
  have hlt := surrogatePair_lt hhigh hlow
  rw [utf8, if_neg (by omega), if_neg (by omega), if_neg (by omega), escapeText_plain]
  · simp
  · simp only [List.forall_mem_cons]
    exact ⟨isStrChar_high (by omega) (by omega), isStrChar_high (by omega) (by omega),
      isStrChar_high (by omega) (by omega), isStrChar_high (by omega) (by omega),
      List.forall_mem_nil _⟩

theorem escapeValue_length_le {e : UInt8} (h : e ∈ escapes) :
    (escapeByte (escapeValue e)).length ≤ 2 := by
  have hall : ∀ e ∈ escapes, (escapeByte (escapeValue e)).length ≤ 2 := by decide +kernel
  exact hall e h

/-- A high surrogate that waits has been written with six octets. -/
def waiting (high : Option Nat) : Nat := if high.isSome then 6 else 0

theorem unescapeFrom_length_le (cs : List StrChar) : ∀ high : Option Nat,
    (∀ n ∈ high, isHighSurrogate n) → (escapeText (unescapeFrom high cs)).length ≤
      waiting high + (cs.flatMap StrChar.text).length := by
  have hflush : ∀ high : Option Nat, (∀ n ∈ high, isHighSurrogate n) →
      (escapeText (high.elim [] utf8)).length ≤ waiting high := by
    intro high hhigh
    cases high with
    | none => exact le_rfl
    | some n =>
        have hn := isHighSurrogate_iff.mp (hhigh n rfl)
        exact escapeText_utf8_le (by omega)
  have hnone : ∀ n ∈ (none : Option Nat), isHighSurrogate n :=
    fun n h => absurd h (Option.not_mem_none n)
  induction cs with
  | nil => exact hflush
  | cons c cs ih =>
      intro high hhigh
      have hwaiting := hflush high hhigh
      have hrest := ih none hnone
      rw [show waiting none = 0 from rfl] at hrest
      rw [List.flatMap_cons, List.length_append]
      cases c with
      | plain b hb =>
          have hplain : isStrChar b := by
            simpa [isStrChar, and_assoc] using hb
          rw [unescapeFrom, escapeText_append, escapeText_cons, escapeByte_plain hplain,
            List.length_append, List.length_append, StrChar.text, List.length_singleton]
          omega
      | escape e he =>
          have hvalue := escapeValue_length_le he
          have htext : (StrChar.escape e he).text.length = 2 := rfl
          rw [unescapeFrom, escapeText_append, escapeText_cons, List.length_append,
            List.length_append, htext]
          omega
      | unicode a b c d h =>
          have hsix := escapeText_utf8_le (codeUnit_lt h)
          have htext : (StrChar.unicode a b c d h).text.length = 6 := rfl
          rw [htext]
          rcases unescapeFrom_unicode_cases h high cs with
            ⟨n, rfl, hlow, heq⟩ | ⟨hwaits, heq⟩ | heq
          · have htwelve := escapeText_pair_le (hhigh n rfl) hlow
            rw [heq, show waiting (some n) = 6 from rfl, escapeText_append, List.length_append]
            omega
          · have hnext := ih (some (codeUnit a b c d)) (by rintro n ⟨⟩; exact hwaits)
            rw [show waiting (some (codeUnit a b c d)) = 6 from rfl] at hnext
            rw [heq, escapeText_append, List.length_append]
            omega
          · rw [heq, escapeText_append, escapeText_append, List.length_append, List.length_append]
            omega

theorem Str.unescape_length_le (s : Str) : (escapeText s.unescape).length ≤ s.text.length := by
  have h := unescapeFrom_length_le s.chars none fun n h => absurd h (Option.not_mem_none n)
  rw [waiting] at h
  simpa [Str.unescape, Str.text] using h

/-! ## Values -/

/-- The shortest text of an entry. -/
def Kind.entryText : Kind → Bytes × Json → Bytes
  | .array, e => e.2.text
  | .object, e => memberJsonText e.1 e.2.text

theorem Kind.json_text (k : Kind) (es : List (Bytes × Json)) :
    (k.json es).text = k.opening :: commaJoin (es.map k.entryText) ++ [k.closing] := by
  cases k with
  | array =>
      rw [Kind.json, Json.text, Json.texts_eq, List.map_map]
      rfl
  | object =>
      rw [Kind.json, Json.text, Json.memberTexts_eq]
      rfl

theorem Label.entryText_length_le {k : Kind} (l : Label k) {v : Value}
    (hv : v.json.text.length ≤ v.text.length) :
    (k.entryText (l.unescape, v.json)).length ≤ l.text.length + v.text.length := by
  cases l with
  | element => exact hv.trans (Nat.le_add_left _ _)
  | key s w w' =>
      have hs := s.unescape_length_le
      have htext : (Label.key s w w').text.length =
          s.text.length + w.text.length + w'.text.length + 3 := by
        simp [Label.text]
        omega
      have hentry : (Kind.object.entryText ((Label.key s w w').unescape, v.json)).length =
          (escapeText s.unescape).length + v.json.text.length + 3 := by
        simp [Kind.entryText, memberJsonText, Label.unescape]
        omega
      omega

theorem commaJoin_singleton (part : Bytes) : commaJoin [part] = part := by
  rw [commaJoin_cons, List.flatMap_nil, List.append_nil]

theorem commaJoin_cons_length_le (part : Bytes) (parts : List Bytes) :
    (commaJoin (part :: parts)).length ≤ part.length + ((commaJoin parts).length + 1) := by
  rw [commaJoin_cons, List.length_append]
  cases parts with
  | nil => exact Nat.add_le_add_left (Nat.zero_le _) _
  | cons part' parts =>
      rw [commaJoin_cons, List.flatMap_cons]
      simp

mutual

theorem Value.json_length_le : ∀ v : Value, v.json.text.length ≤ v.text.length
  | .literal l => by cases l <;> exact le_rfl
  | .number n => n.json_length_le
  | .string s => by
      have hs := s.unescape_length_le
      have hjson : (Value.string s).json.text.length = (escapeText s.unescape).length + 2 := by
        simp [Value.json, Json.text]
      have htext : (Value.string s).text.length = s.text.length + 2 := by
        simp [Value.text]
      omega
  | .empty k w => by
      rw [Value.json, Kind.json_text, Value.text]
      simp [commaJoin, List.intercalate]
  | .container k es => by
      have hes := Entries.json_length_le es
      rw [Value.json, Kind.json_text, Value.text, List.length_append, List.length_append,
        List.length_cons, List.length_cons]
      exact Nat.add_le_add_right (Nat.succ_le_succ hes) _

theorem Entries.json_length_le : ∀ {k : Kind} (es : Entries k),
    (commaJoin (es.json.map k.entryText)).length ≤ es.text.length
  | k, .last w l v a => by
      have hentry := l.entryText_length_le (Value.json_length_le v)
      rw [Entries.json, List.map_singleton, commaJoin_singleton]
      simp only [Entries.text, List.length_append]
      omega
  | k, .more w l v a es => by
      have hentry := l.entryText_length_le (Value.json_length_le v)
      have hes := Entries.json_length_le es
      have hjoin := commaJoin_cons_length_le (k.entryText (l.unescape, v.json))
        (es.json.map k.entryText)
      rw [Entries.json, List.map_cons]
      simp only [Entries.text, List.length_append, List.length_cons]
      omega

end

theorem Decodes.length_le {w : Bytes} {j : Json} (h : Decodes w j) : j.text.length ≤ w.length := by
  obtain ⟨before, after, v, rfl, rfl⟩ := h
  have hv := v.json_length_le
  simp only [List.length_append]
  omega

/-! ## Texts that are too short -/

/-- A text is not longer than another, and not shorter only if `P` holds. -/
def Fits (P : Prop) (w w' : Bytes) : Prop := w.length ≤ w'.length ∧ (w'.length ≤ w.length → P)

namespace Fits

variable {P Q : Prop} {w w' v v' : Bytes}

theorem refl (w : Bytes) : Fits True w w := ⟨le_rfl, fun _ => trivial⟩

theorem imp (h : Fits P w w') (hPQ : P → Q) : Fits Q w w' := ⟨h.1, fun hle => hPQ (h.2 hle)⟩

theorem append (h : Fits P w w') (h' : Fits Q v v') : Fits (P ∧ Q) (w ++ v) (w' ++ v') := by
  obtain ⟨hle, hP⟩ := h
  obtain ⟨hle', hQ⟩ := h'
  rw [Fits, List.length_append, List.length_append]
  exact ⟨by omega, fun hge => ⟨hP (by omega), hQ (by omega)⟩⟩

theorem cons (h : Fits P w w') (b : UInt8) : Fits P (b :: w) (b :: w') :=
  ((refl [b]).append h).imp And.right

theorem concat (h : Fits P w w') (b : UInt8) : Fits P (w ++ [b]) (w' ++ [b]) :=
  (h.append (refl [b])).imp And.left

end Fits

/-- The texts of a list fit one by one. -/
inductive FitsAll : Prop → List Bytes → List Bytes → Prop where
  | nil : FitsAll True [] []
  | cons {P Q : Prop} {w w' : Bytes} {ws ws' : List Bytes} : Fits P w w' → FitsAll Q ws ws' →
      FitsAll (P ∧ Q) (w :: ws) (w' :: ws')

namespace FitsAll

variable {P : Prop} {ws ws' : List Bytes}

theorem map {α : Type} {f f' : α → Bytes} {P : α → Prop} (h : ∀ a, Fits (P a) (f a) (f' a)) :
    ∀ l : List α, ∃ Q, FitsAll Q (l.map f) (l.map f') ∧ (Q → ∀ a ∈ l, P a)
  | [] => ⟨True, .nil, fun _ => List.forall_mem_nil _⟩
  | a :: l => by
      obtain ⟨Q, hfits, hQ⟩ := map h l
      exact ⟨_, .cons (h a) hfits, fun hall => List.forall_mem_cons.mpr ⟨hall.1, hQ hall.2⟩⟩

theorem flatMap (h : FitsAll P ws ws') :
    Fits P (ws.flatMap (comma :: ·)) (ws'.flatMap (comma :: ·)) := by
  induction h with
  | nil => exact .refl []
  | cons hw _ ih =>
      rw [List.flatMap_cons, List.flatMap_cons]
      exact (hw.cons comma).append ih

theorem commaJoin (h : FitsAll P ws ws') : Fits P (commaJoin ws) (commaJoin ws') := by
  cases h with
  | nil => exact .refl []
  | cons hw hws =>
      rw [commaJoin_cons, commaJoin_cons]
      exact hw.append hws.flatMap

theorem objectText (h : FitsAll P ws ws') : Fits P (objectText ws) (objectText ws') :=
  (h.commaJoin.cons lbrace).concat rbrace

theorem arrayText (h : FitsAll P ws ws') : Fits P (arrayText ws) (arrayText ws') :=
  (h.commaJoin.cons lbracket).concat rbracket

end FitsAll

theorem escapeByte_length_of_not {b : UInt8} (h : ¬ isStrChar b) : 2 ≤ (escapeByte b).length := by
  rw [← escapeChar_text, escapeChar, dif_neg h]
  split_ifs <;> simp [StrChar.text]

theorem fits_escapeByte (b : UInt8) : Fits (isStrChar b) [b] (escapeByte b) := by
  by_cases h : isStrChar b
  · rw [escapeByte_plain h]
    exact ⟨le_rfl, fun _ => h⟩
  · have hlong := escapeByte_length_of_not h
    rw [Fits, List.length_singleton]
    exact ⟨by omega, fun hle => by omega⟩

/-- A key is written without escapes, up to the first NUL. -/
theorem fits_cString (s : Bytes) : Fits (s.all isStrChar) (cString s) (escapeText s) := by
  induction s with
  | nil => exact (Fits.refl []).imp fun _ => rfl
  | cons b s ih =>
      rw [escapeText_cons]
      by_cases hb : b = 0
      · subst hb
        have hpos : 0 < (escapeByte 0 ++ escapeText s).length := by
          rw [List.length_append]
          exact Nat.add_pos_left (fits_escapeByte 0).1 _
        exact ⟨Nat.zero_le _, fun hle => absurd hle (Nat.not_le_of_lt hpos)⟩
      · have hcons : cString (b :: s) = [b] ++ cString s := by
          rw [cString, List.takeWhile_cons_of_pos (by simpa using hb)]
          rfl
        rw [hcons, List.all_cons, Bool.and_eq_true]
        exact (fits_escapeByte b).append ih

theorem Fits.member {P : Prop} {w w' : Bytes} (h : Fits P w w') (key : Bytes) :
    Fits (key.all isStrChar ∧ P) (keyText key ++ w) (memberJsonText key w') := by
  have hkey := ((fits_cString key).cons quote).append (.refl [quote, colon])
  exact (hkey.append h).imp fun hall => ⟨hall.1.1, hall.2⟩

/-- A string is written with escapes, up to the first NUL. -/
theorem fits_stringText (s : Bytes) : Fits (0 ∉ s) (stringText s) (Json.string s).text := by
  have hsplit : escapeText s = escapeText (cString s) ++ escapeText (s.dropWhile (· ≠ 0)) := by
    rw [← escapeText_append, cString, List.takeWhile_append_dropWhile]
  have hescape : Fits (0 ∉ s) (escapeText (cString s)) (escapeText s) := by
    rw [hsplit, Fits, List.length_append]
    refine ⟨Nat.le_add_right _ _, fun hle hzero => ?_⟩
    have hnil : escapeText (s.dropWhile (· ≠ 0)) = [] := List.length_eq_zero_iff.mp (by omega)
    cases hrest : s.dropWhile (· ≠ 0) with
    | nil => exact absurd (List.dropWhile_eq_nil_iff.mp hrest 0 hzero) (by decide)
    | cons b t =>
        have hpos := (fits_escapeByte b).1
        rw [hrest, escapeText_cons, List.append_eq_nil_iff] at hnil
        rw [hnil.1] at hpos
        cases hpos
  exact (hescape.cons quote).concat quote

end McpToolkit
