import McpToolkit.Json.Document
/-!
# What a JSON text says

Decoding a syntax tree gives a value without white space and without escapes.  The
parts of a container are read one by one.
-/

namespace McpToolkit

/-- A decoded value.  Members and elements are in the order of the text. -/
inductive Json where
  | null
  | bool (b : Bool)
  | int (n : Int)
  /-- A number with a fraction or an exponent, as it is written. -/
  | number (literal : Bytes)
  | string (s : Bytes)
  | array (elements : List Json)
  | object (members : List (Bytes × Json))

/-! ## Strings -/

/-- The value of a hexadecimal digit. -/
def hexValue (b : UInt8) : Nat :=
  if isdigit b then digitValue b else if b ≤ 0x46 then b.toNat - 55 else b.toNat - 87

/-- The number that `\u` and four digits stand for. -/
def codeUnit (a b c d : UInt8) : Nat :=
  ((hexValue a * 16 + hexValue b) * 16 + hexValue c) * 16 + hexValue d

/-- The octets of a code point. -/
def utf8 (n : Nat) : Bytes :=
  if n < 0x80 then [n.toUInt8]
  else if n < 0x800 then [(0xC0 + n / 64).toUInt8, (0x80 + n % 64).toUInt8]
  else if n < 0x10000 then
    [(0xE0 + n / 4096).toUInt8, (0x80 + n / 64 % 64).toUInt8, (0x80 + n % 64).toUInt8]
  else [(0xF0 + n / 262144).toUInt8, (0x80 + n / 4096 % 64).toUInt8, (0x80 + n / 64 % 64).toUInt8,
    (0x80 + n % 64).toUInt8]

def isHighSurrogate (n : Nat) : Bool := 0xD800 ≤ n && n < 0xDC00

def isLowSurrogate (n : Nat) : Bool := 0xDC00 ≤ n && n < 0xE000

/-- The code point of a pair of surrogates. -/
def surrogatePair (high low : Nat) : Nat := 0x10000 + (high - 0xD800) * 1024 + (low - 0xDC00)

/-- The octet that a letter behind a backslash stands for. -/
def escapeValue (e : UInt8) : UInt8 :=
  if e = 0x62 then 8
  else if e = 0x66 then 12
  else if e = 0x6E then newline
  else if e = 0x72 then 13
  else if e = 0x74 then 9
  else e

/-- The octets of characters behind a high surrogate that still waits for a low one.  A
surrogate without its other half is kept as a code point of its own. -/
def unescapeFrom : Option Nat → List StrChar → Bytes
  | high, [] => high.elim [] utf8
  | high, .plain b _ :: cs => high.elim [] utf8 ++ b :: unescapeFrom none cs
  | high, .escape e _ :: cs => high.elim [] utf8 ++ escapeValue e :: unescapeFrom none cs
  | high, .unicode a b c d _ :: cs =>
      let n := codeUnit a b c d
      if isLowSurrogate n && high.isSome then
        utf8 (surrogatePair (high.getD 0) n) ++ unescapeFrom none cs
      else if isHighSurrogate n then high.elim [] utf8 ++ unescapeFrom (some n) cs
      else high.elim [] utf8 ++ (utf8 n ++ unescapeFrom none cs)

/-- The octets that a string stands for. -/
def Str.unescape (s : Str) : Bytes := unescapeFrom none s.chars

/-! ## Values -/

def Literal.json : Literal → Json
  | .true => .bool Bool.true
  | .false => .bool Bool.false
  | .null => .null

def Number.json (n : Number) : Json :=
  match n.toInt? with
  | some k => .int k
  | none => .number n.text

/-- A container of decoded entries. -/
def Kind.json : Kind → List (Bytes × Json) → Json
  | .array, es => .array (es.map (·.2))
  | .object, es => .object es

/-- The decoded name in front of an entry. -/
def Label.unescape : {k : Kind} → Label k → Bytes
  | _, .element => []
  | _, .key s _ _ => s.unescape

mutual

def Value.json : Value → Json
  | .literal l => l.json
  | .number n => n.json
  | .string s => .string s.unescape
  | .empty k _ => k.json []
  | .container k es => k.json es.json

def Entries.json : {k : Kind} → Entries k → List (Bytes × Json)
  | _, .last _ l v _ => [(l.unescape, v.json)]
  | _, .more _ l v _ es => (l.unescape, v.json) :: es.json

end

def Label.strs : {k : Kind} → Label k → List Str
  | _, .element => []
  | _, .key s _ _ => [s]

mutual

/-- The strings anywhere in a value, keys included. -/
def Value.strs : Value → List Str
  | .literal _ => []
  | .number _ => []
  | .string s => [s]
  | .empty _ _ => []
  | .container _ es => es.strs

def Entries.strs : {k : Kind} → Entries k → List Str
  | _, .last _ l v _ => l.strs ++ v.strs
  | _, .more _ l v _ es => l.strs ++ v.strs ++ es.strs

end

/-- A text decodes to a value. -/
def Decodes (w : Bytes) (j : Json) : Prop :=
  ∃ (before after : Ws) (v : Value), w = before.text ++ v.text ++ after.text ∧ v.json = j

/-! ## Surrogates -/

theorem isHighSurrogate_iff {n : Nat} : isHighSurrogate n = true ↔ 0xD800 ≤ n ∧ n < 0xDC00 := by
  simp [isHighSurrogate]

theorem isLowSurrogate_iff {n : Nat} : isLowSurrogate n = true ↔ 0xDC00 ≤ n ∧ n < 0xE000 := by
  simp [isLowSurrogate]

theorem le_surrogatePair (high low : Nat) : 0x10000 ≤ surrogatePair high low := by
  unfold surrogatePair
  omega

theorem surrogatePair_lt {high low : Nat} (hhigh : isHighSurrogate high)
    (hlow : isLowSurrogate low) : surrogatePair high low < 0x110000 := by
  rw [isHighSurrogate_iff] at hhigh
  rw [isLowSurrogate_iff] at hlow
  unfold surrogatePair
  omega

/-- A code unit completes the one that waits, waits itself, or stands alone. -/
theorem unescapeFrom_unicode_cases {a b c d : UInt8} (h : ∀ x ∈ [a, b, c, d], isHex x)
    (high : Option Nat) (cs : List StrChar) :
    (∃ n, high = some n ∧ isLowSurrogate (codeUnit a b c d) ∧
      unescapeFrom high (.unicode a b c d h :: cs) =
        utf8 (surrogatePair n (codeUnit a b c d)) ++ unescapeFrom none cs) ∨
    (isHighSurrogate (codeUnit a b c d) ∧
      unescapeFrom high (.unicode a b c d h :: cs) =
        high.elim [] utf8 ++ unescapeFrom (some (codeUnit a b c d)) cs) ∨
    unescapeFrom high (.unicode a b c d h :: cs) =
      high.elim [] utf8 ++ (utf8 (codeUnit a b c d) ++ unescapeFrom none cs) := by
  rw [unescapeFrom]
  split_ifs with hpair hhigh
  · rw [Bool.and_eq_true, Option.isSome_iff_exists] at hpair
    obtain ⟨hlow, n, rfl⟩ := hpair
    exact .inl ⟨n, rfl, hlow, rfl⟩
  · exact .inr (.inl ⟨hhigh, rfl⟩)
  · exact .inr (.inr rfl)

/-! ## Escaped strings -/

theorem hexValue_hexDigit {n : UInt8} (h : n < 16) : hexValue (hexDigit n) = n.toNat := by
  have hall : ∀ n < 16, hexValue (hexDigit n.toUInt8) = n := by decide
  have hn : n.toNat < 16 := UInt8.lt_iff_toNat_lt.mp h
  have hvalue := hall n.toNat hn
  rw [Nat.toUInt8, UInt8.ofNat_toNat] at hvalue
  exact hvalue

theorem codeUnit_hexDigit (b : UInt8) :
    codeUnit 0x30 0x30 (hexDigit (b / 16)) (hexDigit (b % 16)) = b.toNat := by
  rw [codeUnit, hexValue_hexDigit (div_sixteen_lt b), hexValue_hexDigit (mod_sixteen_lt b),
    UInt8.toNat_div, UInt8.toNat_mod]
  change ((0 * 16 + 0) * 16 + b.toNat / 16) * 16 + b.toNat % 16 = b.toNat
  omega

/-- Control characters stand for themselves. -/
theorem unescapeFrom_unicode {a b c d : UInt8} {h : ∀ x ∈ [a, b, c, d], isHex x}
    (hlow : codeUnit a b c d < 0x80) (cs : List StrChar) :
    unescapeFrom none (.unicode a b c d h :: cs) =
      (codeUnit a b c d).toUInt8 :: unescapeFrom none cs := by
  have hhigh : isHighSurrogate (codeUnit a b c d) = false := by
    rw [Bool.eq_false_iff, ne_eq, isHighSurrogate_iff]
    omega
  have hone : utf8 (codeUnit a b c d) = [(codeUnit a b c d).toUInt8] := if_pos hlow
  rw [unescapeFrom, Option.isSome_none, Bool.and_false, hhigh, hone]
  rfl

theorem unescapeFrom_escapeChar (b : UInt8) (cs : List StrChar) :
    unescapeFrom none (escapeChar b :: cs) = b :: unescapeFrom none cs := by
  unfold escapeChar
  split_ifs with hplain hq hb h8 h12 hn h13 h9
  · rfl
  · rw [hq]
    rfl
  · rw [hb]
    rfl
  · rw [h8]
    rfl
  · rw [h12]
    rfl
  · rw [hn]
    rfl
  · rw [h13]
    rfl
  · rw [h9]
    rfl
  · have hlow : b.toNat < 0x20 := by
      simp only [isStrChar, hq, hb, Bool.and_eq_true, decide_eq_true_eq, ne_eq, not_false_eq_true,
        and_true] at hplain
      exact UInt8.lt_iff_toNat_lt.mp (UInt8.not_le.mp hplain)
    have hunit := codeUnit_hexDigit b
    rw [unescapeFrom_unicode (by omega), hunit, Nat.toUInt8, UInt8.ofNat_toNat]

/-- Escaping loses nothing. -/
theorem escaped_unescape (s : Bytes) : (escaped s).unescape = cString s := by
  rw [escaped, Str.unescape]
  induction cString s with
  | nil => rfl
  | cons b s ih => rw [List.map_cons, unescapeFrom_escapeChar, ih]

/-! ## ASCII characters -/

theorem hexValue_lt {b : UInt8} (h : isHex b) : hexValue b < 16 := by
  have hall : ∀ b, isHex b = true → hexValue b < 16 := octets_forall (by decide +kernel)
  exact hall b h

theorem codeUnit_lt {a b c d : UInt8} (h : ∀ x ∈ [a, b, c, d], isHex x) :
    codeUnit a b c d < 0x10000 := by
  simp only [List.forall_mem_cons] at h
  obtain ⟨ha, hb, hc, hd, -⟩ := h
  have ha := hexValue_lt ha
  have hb := hexValue_lt hb
  have hc := hexValue_lt hc
  have hd := hexValue_lt hd
  unfold codeUnit
  omega

/-- The ASCII character that a character of a string stands for, if it stands for one. -/
def StrChar.ascii? : StrChar → Option UInt8
  | .plain b _ => if b < 0x80 then some b else none
  | .escape e _ => some (escapeValue e)
  | .unicode a b c d _ =>
      if codeUnit a b c d < 0x80 then some (codeUnit a b c d).toUInt8 else none

/-- The octets of other code points are not ASCII. -/
theorem mem_utf8 {n : Nat} (hn : n < 0x110000) {b : UInt8} (hb : b < 0x80) :
    b ∈ utf8 n ↔ n < 0x80 ∧ b = n.toUInt8 := by
  have hhigh : ∀ {m : Nat}, 0x80 ≤ m → m < 256 → b ≠ m.toUInt8 := by
    rintro m hm hm' rfl
    have hall : ∀ m < 256, 0x80 ≤ m → ¬ m.toUInt8 < 0x80 := by decide +kernel
    exact hall m hm' hm hb
  unfold utf8
  split_ifs with h₁ h₂ h₃
  · rw [List.mem_singleton]
    exact ⟨fun h => ⟨h₁, h⟩, fun h => h.2⟩
  all_goals
    refine iff_of_false (fun hmem => ?_) fun h => h₁ h.1
    simp only [List.mem_cons, List.not_mem_nil, or_false] at hmem
  · rcases hmem with h | h <;> exact hhigh (by omega) (by omega) h
  · rcases hmem with h | h | h <;> exact hhigh (by omega) (by omega) h
  · rcases hmem with h | h | h | h <;> exact hhigh (by omega) (by omega) h

theorem mem_unescapeFrom {b : UInt8} (hb : b < 0x80) (cs : List StrChar) : ∀ high : Option Nat,
    (∀ n ∈ high, isHighSurrogate n) →
      (b ∈ unescapeFrom high cs ↔ ∃ c ∈ cs, c.ascii? = some b) := by
  have hflush : ∀ high : Option Nat, (∀ n ∈ high, isHighSurrogate n) →
      b ∉ high.elim [] utf8 := by
    intro high hhigh
    cases high with
    | none => exact List.not_mem_nil
    | some n =>
        have hn := isHighSurrogate_iff.mp (hhigh n rfl)
        intro hmem
        have hlow := ((mem_utf8 (by omega) hb).mp hmem).1
        omega
  have hnone : ∀ n ∈ (none : Option Nat), isHighSurrogate n :=
    fun n h => absurd h (Option.not_mem_none n)
  induction cs with
  | nil =>
      intro high hhigh
      exact iff_of_false (hflush high hhigh) (by simp)
  | cons c cs ih =>
      intro high hhigh
      have hnot := hflush high hhigh
      rw [List.exists_mem_cons_iff, ← ih none hnone]
      cases c with
      | plain d hd =>
          rw [unescapeFrom, List.mem_append, or_iff_right hnot, List.mem_cons, StrChar.ascii?,
            Option.ite_none_right_eq_some, Option.some.injEq]
          refine or_congr_left ⟨?_, fun h => h.2.symm⟩
          rintro rfl
          exact ⟨hb, rfl⟩
      | escape e he =>
          rw [unescapeFrom, List.mem_append, or_iff_right hnot, List.mem_cons, StrChar.ascii?,
            Option.some.injEq, eq_comm]
      | unicode d₁ d₂ d₃ d₄ h =>
          have hunit := codeUnit_lt h
          rw [StrChar.ascii?, Option.ite_none_right_eq_some, Option.some.injEq]
          rcases unescapeFrom_unicode_cases h high cs with
            ⟨n, rfl, hlow, heq⟩ | ⟨hwaits, heq⟩ | heq
          · have hge := le_surrogatePair n (codeUnit d₁ d₂ d₃ d₄)
            have hlow' := isLowSurrogate_iff.mp hlow
            rw [heq, List.mem_append, mem_utf8 (surrogatePair_lt (hhigh n rfl) hlow) hb]
            exact or_congr_left (iff_of_false (fun h => by omega) fun h => by omega)
          · have hn := isHighSurrogate_iff.mp hwaits
            have hwaiting : ∀ n ∈ some (codeUnit d₁ d₂ d₃ d₄), isHighSurrogate n := by
              rintro n ⟨⟩
              exact hwaits
            rw [heq, List.mem_append, or_iff_right hnot, ih _ hwaiting, ← ih none hnone,
              or_iff_right fun h => by omega]
          · rw [heq, List.mem_append, or_iff_right hnot, List.mem_append, mem_utf8 (by omega) hb]
            exact or_congr_left (and_congr_right fun _ => eq_comm)

/-- An ASCII character is in a string exactly if one of its characters stands for it. -/
theorem Str.mem_unescape {b : UInt8} (hb : b < 0x80) (s : Str) :
    b ∈ s.unescape ↔ ∃ c ∈ s.chars, c.ascii? = some b :=
  mem_unescapeFrom hb s.chars none fun n h => absurd h (Option.not_mem_none n)

theorem Label.mem_text {k : Kind} {l : Label k} {s : Str} (hs : s ∈ l.strs) {b : UInt8}
    (hb : b ∈ s.text) : b ∈ l.text := by
  cases l with
  | element => cases hs
  | key s' w w' =>
      rw [List.mem_singleton.mp hs] at hb
      simp [Label.text, hb]

mutual

/-- What stands in a string stands in the text. -/
theorem Value.mem_text : ∀ {v : Value} {s : Str}, s ∈ v.strs → ∀ {b : UInt8}, b ∈ s.text →
    b ∈ v.text
  | .string s', s, hs, b, hb => by
      rw [List.mem_singleton.mp hs] at hb
      simp [Value.text, hb]
  | .container k es, s, hs, b, hb => by
      have hes := Entries.mem_text hs hb
      simp [Value.text, hes]

theorem Entries.mem_text : ∀ {k : Kind} {es : Entries k} {s : Str}, s ∈ es.strs →
    ∀ {b : UInt8}, b ∈ s.text → b ∈ es.text
  | k, .last w l v a, s, hs, b, hb => by
      rcases List.mem_append.mp hs with hs | hs
      · simp [Entries.text, Label.mem_text hs hb]
      · simp [Entries.text, Value.mem_text hs hb]
  | k, .more w l v a es, s, hs, b, hb => by
      rcases List.mem_append.mp hs with hs | hs
      · rcases List.mem_append.mp hs with hs | hs
        · simp [Entries.text, Label.mem_text hs hb]
        · simp [Entries.text, Value.mem_text hs hb]
      · simp [Entries.text, Entries.mem_text hs hb]

end

/-! ## Reading parts -/

/-- A part of a container decodes to a name and a value. -/
def DecodesEntry (k : Kind) (part : Bytes) (e : Bytes × Json) : Prop :=
  ∃ (w : Ws) (l : Label k) (v : Value) (w' : Ws),
    part = w.text ++ l.text ++ v.text ++ w'.text ∧ (l.unescape, v.json) = e

theorem Decodes.of_value (v : Value) : Decodes v.text v.json :=
  ⟨.none, .none, v, by simp [Ws.none], rfl⟩

theorem exists_entries {k : Kind} {part : Bytes} {parts : List Bytes} {e : Bytes × Json}
    {es : List (Bytes × Json)} (hfirst : DecodesEntry k part e)
    (hrest : List.Forall₂ (DecodesEntry k) parts es) :
    ∃ entries : Entries k, entries.text = commaJoin (part :: parts) ∧ entries.json = e :: es := by
  induction hrest generalizing part e with
  | nil =>
      obtain ⟨w, l, v, w', rfl, rfl⟩ := hfirst
      exact ⟨.last w l v w', by simp [Entries.text, commaJoin_cons], rfl⟩
  | @cons part' e' parts es hnext _ ih =>
      obtain ⟨w, l, v, w', rfl, rfl⟩ := hfirst
      obtain ⟨entries, htext, hjson⟩ := ih hnext
      refine ⟨.more w l v w' entries, ?_, ?_⟩
      · rw [Entries.text, htext, commaJoin_cons, commaJoin_cons]
        simp
      · rw [Entries.json, hjson]

/-- Between brackets and joined by commas, the parts are read one by one. -/
theorem Decodes.container {k : Kind} {parts : List Bytes} {es : List (Bytes × Json)}
    (h : List.Forall₂ (DecodesEntry k) parts es) :
    Decodes (k.opening :: commaJoin parts ++ [k.closing]) (k.json es) := by
  cases h with
  | nil => exact .of_value (.empty k .none)
  | cons hfirst hrest =>
      obtain ⟨entries, htext, hjson⟩ := exists_entries hfirst hrest
      have hvalue := Decodes.of_value (.container k entries)
      rw [Value.text, Value.json, htext, hjson] at hvalue
      exact hvalue

/-- White space before a value belongs to the colon of its key. -/
theorem Decodes.member {w : Bytes} {j : Json} (h : Decodes w j) (s : Str) :
    DecodesEntry .object (quote :: s.text ++ [quote, colon] ++ w) (s.unescape, j) := by
  obtain ⟨before, after, v, rfl, rfl⟩ := h
  exact ⟨.none, .key s .none before, v, after, by simp [Label.text, Ws.none], rfl⟩

theorem Decodes.element {w : Bytes} {j : Json} (h : Decodes w j) :
    DecodesEntry .array w ([], j) := by
  obtain ⟨before, after, v, rfl, rfl⟩ := h
  exact ⟨before, .element, v, after, by simp [Label.text], rfl⟩

end McpToolkit
