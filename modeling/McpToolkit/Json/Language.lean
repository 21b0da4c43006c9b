import McpToolkit.Json.Fields
import McpToolkit.Json.Integers
/-!
# What the parser accepts

The parser takes more than the objects of RFC 8259: any octets between two quotes, brackets
of one kind only counted, digits left out behind a point or an exponent, a comma behind the
last member, and anything at all behind the object.  The trees below are exactly the texts
that it takes, and the message is read off the tree.
-/

namespace McpToolkit

open JsonParser Scan

/-! ## Trees -/

/-- What `skip_ws` skips. -/
structure Spaces where
  text : Bytes
  space : ∀ b ∈ text, isspace b

/-- What stands between the quotes of a string: octets without an unescaped quote. -/
structure Quoted where
  text : Bytes
  enclosed : Enclosed text

/-- Digits, or none. -/
structure DigitRun where
  text : Bytes
  digit : ∀ b ∈ text, isdigit b

structure LooseExponent where
  letter : UInt8
  isLetter : (letter = lowerE || letter = upperE) = true
  sign : Option UInt8
  isSign : ∀ b ∈ sign, (b = plus || b = minus) = true
  digits : DigitRun

structure LooseNumber where
  negative : Bool
  int : Digits
  frac : Option DigitRun
  exp : Option LooseExponent

/-- An integer literal with a value that an `int` can have. -/
structure IntLiteral where
  negative : Bool
  digits : Digits
  le : natFrom 0 digits.text ≤ intMax

/-- What stands in a container before the bracket that closes it, with `depth` brackets of
its kind open.  Brackets of the other kind are octets like any other. -/
inductive Inside (k : Kind) : Nat → Type where
  | nil {depth : Nat} : Inside k depth
  | octet {depth : Nat} (b : UInt8) (h : b ≠ quote ∧ b ≠ k.opening ∧ b ≠ k.closing)
      (rest : Inside k depth) : Inside k depth
  | string {depth : Nat} (s : Quoted) (rest : Inside k depth) : Inside k depth
  | nested {depth : Nat} (h : depth < kMaxDepth) (inner : Inside k (depth + 1))
      (rest : Inside k depth) : Inside k depth

inductive Loose where
  | literal (l : Literal)
  | number (n : LooseNumber)
  | string (s : Quoted)
  | container (k : Kind) (i : Inside k 1)

def LooseExponent.text (e : LooseExponent) : Bytes := e.letter :: (e.sign.toList ++ e.digits.text)

namespace LooseNumber

def fracText (n : LooseNumber) : Bytes :=
  match n.frac with
  | none => []
  | some d => point :: d.text

def expText (n : LooseNumber) : Bytes :=
  match n.exp with
  | none => []
  | some e => e.text

def text (n : LooseNumber) : Bytes :=
  (if n.negative then [minus] else []) ++ (n.int.text ++ (n.fracText ++ n.expText))

end LooseNumber

namespace IntLiteral

def text (n : IntLiteral) : Bytes := (if n.negative then [minus] else []) ++ n.digits.text

def value (n : IntLiteral) : Int :=
  if n.negative then -(natFrom 0 n.digits.text : Int) else (natFrom 0 n.digits.text : Int)

end IntLiteral

def Inside.text {k : Kind} : {depth : Nat} → Inside k depth → Bytes
  | _, .nil => []
  | _, .octet b _ rest => b :: rest.text
  | _, .string s rest => quote :: (s.text ++ quote :: rest.text)
  | _, .nested _ inner rest => k.opening :: (inner.text ++ k.closing :: rest.text)

def Loose.text : Loose → Bytes
  | .literal l => l.text
  | .number n => n.text
  | .string s => quote :: (s.text ++ [quote])
  | .container k i => k.opening :: (i.text ++ [k.closing])

/-! ## Spaces and strings -/

theorem Spaces.blanks (w : Spaces) {l : Bytes} (hl : Solid l) : blanks (w.text ++ l) = l := by
  rw [Scan.blanks, List.dropWhile_append_of_pos w.space]
  exact hl.blanks

theorem exists_spaces (l : Bytes) : ∃ w : Spaces, l = w.text ++ blanks l := by
  obtain ⟨w, hw, hspace⟩ := consumes_dropWhile isspace l
  exact ⟨⟨w, hspace⟩, hw⟩

theorem symbol_iff {b : UInt8} (hb : isspace b = false) {l r : Bytes} :
    symbol b l = some r ↔ ∃ w : Spaces, l = w.text ++ b :: r := by
  rw [symbol_eq_some]
  constructor
  · intro h
    obtain ⟨w, hw⟩ := exists_spaces l
    rw [h] at hw
    exact ⟨w, hw⟩
  · rintro ⟨w, rfl⟩
    exact w.blanks hb

theorem string_iff {l r : Bytes} : string l = some r ↔ ∃ s : Quoted, l = s.text ++ quote :: r := by
  constructor
  · intro h
    obtain ⟨text, rfl, henc⟩ := string_split h
    exact ⟨⟨text, henc⟩, rfl⟩
  · rintro ⟨s, rfl⟩
    exact string_enclosed s.enclosed r

theorem content_iff {l r : Bytes} {x : Slice} : content l = some (x, r) ↔
    ∃ (w : Spaces) (s : Quoted), l = w.text ++ quote :: (s.text ++ quote :: r) ∧
      x = ⟨s.text ++ quote :: r, quote :: r⟩ := by
  rw [content_eq_some]
  constructor
  · rintro ⟨t, ht, hr, rfl⟩
    obtain ⟨w, hw⟩ := exists_spaces l
    obtain ⟨s, rfl⟩ := string_iff.mp hr
    rw [ht] at hw
    exact ⟨w, s, hw, rfl⟩
  · rintro ⟨w, s, rfl, rfl⟩
    exact ⟨_, w.blanks rfl, string_enclosed s.enclosed r, rfl⟩

/-- A comma is left behind, a closing brace is not. -/
theorem separator_iff {l r : Bytes} : separator l = some r ↔
    ∃ w : Spaces, l = w.text ++ comma :: r ∨ ∃ t, r = rbrace :: t ∧ l = w.text ++ r := by
  have hblank : isspace comma = false ∧ isspace rbrace = false := by decide
  constructor
  · intro h
    obtain ⟨w, hw⟩ := exists_spaces l
    rw [separator] at h
    cases hl : blanks l with
    | nil =>
        rw [hl] at h
        cases h
    | cons b t =>
        rw [hl] at h hw
        dsimp only at h
        split_ifs at h with hcomma hrbrace
        · cases h
          exact ⟨w, .inl (by rw [hw, hcomma])⟩
        · cases h
          exact ⟨w, .inr ⟨t, by rw [hrbrace], hw⟩⟩
  · rintro ⟨w, rfl | ⟨t, rfl, rfl⟩⟩
    · rw [separator, w.blanks (l := comma :: r) hblank.1]
      rfl
    · rw [separator, w.blanks (l := rbrace :: t) hblank.2]
      rfl

/-! ## Numbers -/

/-- No number goes on in what follows. -/
def NumberStops (r : Bytes) : Prop := startsWith isNumberChar r = false

theorem NumberStops.of {q : UInt8 → Bool} (hq : ∀ b, q b = true → isNumberChar b = true)
    {r : Bytes} (h : NumberStops r) : startsWith q r = false := by
  cases r with
  | nil => rfl
  | cons b t =>
      have hb : isNumberChar b = false := h
      refine Bool.eq_false_iff.mpr fun hqb => ?_
      rw [hq b hqb] at hb
      cases hb

theorem isNumberChar_of_isdigit (b : UInt8) (h : isdigit b = true) : isNumberChar b = true := by
  simp [isNumberChar, h]

theorem NumberStops.digit {r : Bytes} (h : NumberStops r) : startsWith isdigit r = false :=
  h.of isNumberChar_of_isdigit

theorem DigitRun.startsWith {q : UInt8 → Bool} (d : DigitRun)
    (hq : ∀ b, isdigit b = true → q b = false) {r : Bytes} (h : startsWith q r = false) :
    Scan.startsWith q (d.text ++ r) = false := by
  obtain ⟨text, hdigit⟩ := d
  cases text with
  | nil => exact h
  | cons b t => exact hq b (hdigit b List.mem_cons_self)

theorem dropWhile_run (d : DigitRun) {r : Bytes} (h : startsWith isdigit r = false) :
    (d.text ++ r).dropWhile isdigit = r := by
  rw [List.dropWhile_append_of_pos d.digit, dropWhile_of_startsWith h]

theorem exists_run (l : Bytes) : ∃ d : DigitRun, l = d.text ++ l.dropWhile isdigit := by
  obtain ⟨w, hw, hdigit⟩ := consumes_dropWhile isdigit l
  exact ⟨⟨w, hdigit⟩, hw⟩

theorem startsWith_eq_true {q : UInt8 → Bool} {l : Bytes} (h : startsWith q l = true) :
    ∃ b t, l = b :: t ∧ q b = true := by
  cases l with
  | nil => cases h
  | cons b t => exact ⟨b, t, rfl, h⟩

theorem takeIf_some (q : UInt8 → Bool) (l : Bytes) :
    ∃ o : Option UInt8, (∀ b ∈ o, q b = true) ∧ l = o.toList ++ (takeIf q l).2 := by
  rw [takeIf]
  split_ifs with h
  · obtain ⟨b, t, rfl, hb⟩ := startsWith_eq_true h
    exact ⟨some b, by simpa using hb, rfl⟩
  · exact ⟨none, by simp, rfl⟩

theorem takeIf_toList {q : UInt8 → Bool} {o : Option UInt8} (ho : ∀ b ∈ o, q b = true) {r : Bytes}
    (h : startsWith q r = false) : (takeIf q (o.toList ++ r)).2 = r := by
  cases o with
  | none => rw [takeIf, Option.toList_none, List.nil_append, if_neg (by simp [h])]
  | some b =>
      have hb : startsWith q (b :: r) = true := ho b rfl
      rw [takeIf, Option.toList_some, List.singleton_append, if_pos hb]
      rfl

/-- The sign in front of digits. -/
theorem takeIf_negative (negative : Bool) (d : Digits) (t : Bytes) :
    takeIf (· = minus) ((if negative then [minus] else []) ++ (d.text ++ t)) =
      (negative, d.text ++ t) := by
  cases negative with
  | true => rfl
  | false =>
      rw [if_neg Bool.false_ne_true, List.nil_append, takeIf, d.startsWith_of minus_of_isdigit]
      rfl

theorem exists_digits {l : Bytes} (h : startsWith isdigit l = true) :
    ∃ d : Digits, l = d.text ++ l.dropWhile isdigit := by
  obtain ⟨d, hd⟩ := exists_run l
  refine ⟨⟨d.text, fun hnil => ?_, d.digit⟩, hd⟩
  rw [hnil, List.nil_append] at hd
  rw [hd, startsWith_dropWhile] at h
  cases h

namespace LooseNumber

theorem exists_fracText (l : Bytes) : ∃ frac : Option DigitRun,
    ∀ n : LooseNumber, n.frac = frac → l = n.fracText ++ fraction l := by
  rw [fraction]
  split_ifs with h
  · obtain ⟨b, t, rfl, hb⟩ := startsWith_eq_true h
    obtain ⟨d, hd⟩ := exists_run t
    refine ⟨some d, fun n hn => ?_⟩
    rw [fracText, hn, of_decide_eq_true hb, List.tail_cons, List.cons_append, ← hd]
  · refine ⟨none, fun n hn => ?_⟩
    rw [fracText, hn]
    rfl

theorem exists_expText (l : Bytes) : ∃ exp : Option LooseExponent,
    ∀ n : LooseNumber, n.exp = exp → l = n.expText ++ exponent l := by
  rw [exponent]
  split_ifs with h
  · obtain ⟨b, t, rfl, hb⟩ := startsWith_eq_true h
    obtain ⟨sign, hsign, ht⟩ := takeIf_some (fun b => b = plus || b = minus) t
    obtain ⟨d, hd⟩ := exists_run (takeIf (fun b => b = plus || b = minus) t).2
    refine ⟨some ⟨b, hb, sign, hsign, d⟩, fun n hn => ?_⟩
    have htext : n.expText = b :: (sign.toList ++ d.text) := by rw [expText, hn]; rfl
    rw [htext, List.tail_cons, List.cons_append, List.append_assoc, ← hd, ← ht]
  · refine ⟨none, fun n hn => ?_⟩
    rw [expText, hn]
    rfl

variable (n : LooseNumber) {r : Bytes}

theorem exponent_expText (hr : NumberStops r) : exponent (n.expText ++ r) = r := by
  have hletter : startsWith (fun b => b = lowerE || b = upperE) r = false :=
    hr.of fun b hb => by rw [isNumberChar, Bool.or_assoc, hb, Bool.or_true]
  have hsign : startsWith (fun b => b = plus || b = minus) r = false :=
    hr.of fun b hb => by
      rcases Bool.or_eq_true_iff.mp hb with hb | hb <;> simp [isNumberChar, of_decide_eq_true hb]
  rw [expText]
  split
  · rw [List.nil_append, exponent, if_neg (by simp [hletter])]
  · next e _ =>
      have hstart : ∀ t, startsWith (fun b => b = lowerE || b = upperE) (e.letter :: t) = true :=
        fun t => e.isLetter
      rw [LooseExponent.text, List.cons_append, exponent, if_pos (hstart _), List.tail_cons,
        List.append_assoc, takeIf_toList e.isSign (e.digits.startsWith sign_of_isdigit hsign),
        dropWhile_run e.digits hr.digit]

/-- The exponent starts with its letter. -/
theorem expText_ends {q : UInt8 → Bool} (hq : q lowerE = false ∧ q upperE = false)
    (hr : startsWith q r = false) : startsWith q (n.expText ++ r) = false := by
  rw [expText]
  split
  · exact hr
  · next e _ =>
      have hletter := e.isLetter
      simp only [Bool.or_eq_true, decide_eq_true_eq] at hletter
      change q e.letter = false
      rcases hletter with h | h
      · rw [h]
        exact hq.1
      · rw [h]
        exact hq.2

theorem fraction_fracText (hr : NumberStops r) :
    fraction (n.fracText ++ (n.expText ++ r)) = n.expText ++ r := by
  have hpoint : startsWith (· = point) r = false := hr.of fun b hb => by
    simp [isNumberChar, of_decide_eq_true hb]
  rw [fracText]
  split
  · rw [List.nil_append, fraction, if_neg]
    rw [n.expText_ends (by decide) hpoint]
    exact Bool.false_ne_true
  · next d _ =>
      have hstart : startsWith (· = point) (point :: (d.text ++ (n.expText ++ r))) = true := rfl
      rw [List.cons_append, fraction, if_pos hstart, List.tail_cons,
        dropWhile_run d (n.expText_ends (by decide) hr.digit)]

theorem fracText_ends (hr : NumberStops r) :
    startsWith isdigit (n.fracText ++ (n.expText ++ r)) = false := by
  rw [fracText]
  split
  · exact n.expText_ends (by decide) hr.digit
  · rfl

theorem number_text (hr : NumberStops r) : number (n.text ++ r) = some r := by
  have hsplit : n.text ++ r = (if n.negative then [minus] else []) ++
      (n.int.text ++ (n.fracText ++ (n.expText ++ r))) := by
    simp [text]
  have hrest : exponent (fraction ((n.int.text ++ (n.fracText ++ (n.expText ++ r))).dropWhile
      isdigit)) = r := by
    rw [n.int.dropWhile (n.fracText_ends hr), n.fraction_fracText hr, n.exponent_expText hr]
  rw [hsplit, number, takeIf_negative]
  dsimp only
  rw [n.int.startsWith, hrest, Bool.not_true, Bool.and_false]
  rfl

theorem exists_of_number {l r : Bytes} (h : number l = some r)
    (hstart : startsWith (fun b => b = minus || isdigit b) l = true) :
    ∃ n : LooseNumber, l = n.text ++ r := by
  rw [number] at h
  cases htake : takeIf (· = minus) l with
  | mk negative t =>
      rw [htake] at h
      dsimp only at h
      split_ifs at h with hmissing
      have hl := takeIf_minus htake
      have hdigit : startsWith isdigit t = true := by
        cases negative with
        | true => simpa using hmissing
        | false =>
            obtain ⟨b, t', rfl, hb⟩ := startsWith_eq_true hstart
            rw [takeIf] at htake
            split_ifs at htake with hminus
            · cases htake
            · cases htake
              rcases Bool.or_eq_true_iff.mp hb with hb | hb
              · exact absurd hb hminus
              · exact hb
      obtain ⟨d, hd⟩ := exists_digits hdigit
      obtain ⟨frac, hfrac⟩ := exists_fracText (t.dropWhile isdigit)
      obtain ⟨exp, hexp⟩ := exists_expText (fraction (t.dropWhile isdigit))
      cases h
      refine ⟨⟨negative, d, frac, exp⟩, ?_⟩
      calc l = (if negative = true then [minus] else []) ++
              (d.text ++ t.dropWhile isdigit) := by rw [← hd, hl]
        _ = _ := by
            rw [text, List.append_assoc, List.append_assoc, List.append_assoc,
              ← hexp ⟨negative, d, frac, exp⟩ rfl, ← hfrac ⟨negative, d, frac, exp⟩ rfl]

end LooseNumber

/-- An integer is read as far as its digits go. -/
theorem int_literal (w : Spaces) (n : IntLiteral) {r : Bytes} (hr : NumberStops r) :
    int (w.text ++ (n.text ++ r)) = some (n.value, r) := by
  have hsolid : Solid (n.text ++ r) := by
    rw [Solid, IntLiteral.text, List.append_assoc]
    cases n.negative with
    | true => rfl
    | false => exact n.digits.startsWith_of (fun b hb => isspace_of_isdigit hb) r
  rw [int, w.blanks hsolid, IntLiteral.text, List.append_assoc, takeIf_negative]
  dsimp only
  rw [n.digits.startsWith, if_pos rfl, digits_natFrom hr.digit n.digits.digit n.le]
  rfl

theorem exists_of_int {l r : Bytes} {k : Int} (h : int l = some (k, r)) :
    ∃ (w : Spaces) (n : IntLiteral), l = w.text ++ (n.text ++ r) ∧ k = n.value := by
  obtain ⟨t, rfl⟩ := exists_integerText (l := l) (by rw [h]; exact Option.some_ne_none _)
  rw [t.int_text] at h
  split_ifs at h with hle
  cases h
  have hvalue : t.magnitude = natFrom 0 t.digits.text := (natFrom_eq_ofDigits _).symm
  refine ⟨⟨t.white, t.isspace_white⟩, ⟨t.negative, t.digits, hvalue ▸ hle⟩, ?_, ?_⟩
  · rw [IntegerText.text, IntLiteral.text, IntegerText.sign, List.append_assoc]
  · exact congrArg (fun m : Nat => if t.negative then -(m : Int) else (m : Int)) hvalue

/-! ## Containers -/

/-- What stands inside a container leaves its depth as it is. -/
theorem Inside.container {k : Kind} {d : Nat} (i : Inside k d) (hd : 1 ≤ d) (r : Bytes) :
    container k.opening k.closing .code d (i.text ++ r) =
      container k.opening k.closing .code d r := by
  induction i generalizing r with
  | nil => rfl
  | octet b h rest ih =>
      rw [Inside.text, List.cons_append, (container_countsKind k).skip _ h.1 h.2.1 h.2.2, ih hd]
  | string s rest ih =>
      rw [Inside.text, List.cons_append, List.append_assoc, List.cons_append,
        container_code_quote, container_string, string_enclosed s.enclosed, Option.bind_some,
        ih hd]
  | @nested d hmax inner rest ihinner ihrest =>
      rw [Inside.text, List.cons_append, List.append_assoc, List.cons_append,
        (container_countsKind k).opening _ hmax, ihinner (by omega),
        (container_countsKind k).closing _ (by omega), Nat.add_sub_cancel, ihrest hd]

/-- A container that is closed has such an inside. -/
theorem exists_inside {k : Kind} {l r : Bytes} {d : Nat} (hd : 1 ≤ d) (hmax : d ≤ kMaxDepth)
    (h : container k.opening k.closing .code d l = some r) :
    ∃ (i : Inside k d) (l' : Bytes), l = i.text ++ k.closing :: l' := by
  induction hn : l.length using Nat.strong_induction_on generalizing l d with
  | _ n ih =>
      cases l with
      | nil => cases h
      | cons b t =>
          rw [List.length_cons] at hn
          by_cases hq : b = quote
          · rw [hq, container_code_quote, container_string] at h
            obtain ⟨t', hstring, ht'⟩ := Option.bind_eq_some_iff.mp h
            have hlen := (string_suffix hstring).length_le
            obtain ⟨s, rfl⟩ := string_iff.mp hstring
            obtain ⟨i, l', rfl⟩ := ih t'.length (by omega) hd hmax ht' rfl
            exact ⟨.string s i, l', by simp [Inside.text, hq]⟩
          · rw [container_code_cons _ _ _ hq] at h
            split_ifs at h with ho hlimit hc hlast
            · -- a bracket of the same kind: its inside, and then the rest
              obtain ⟨inner, t', rfl⟩ := ih t.length (by omega) (by omega) (by omega) h rfl
              rw [inner.container (by omega), (container_countsKind k).closing _ (by omega),
                Nat.add_sub_cancel] at h
              obtain ⟨i, l', rfl⟩ := ih t'.length (by simp at hn; omega) hd hmax h rfl
              exact ⟨.nested (by omega) inner i, l', by simp [Inside.text, ho]⟩
            · exact ⟨.nil, t, by rw [hc]; rfl⟩
            · exact ⟨.nil, t, by rw [hc]; rfl⟩
            · obtain ⟨i, l', rfl⟩ := ih t.length (by omega) hd hmax h rfl
              exact ⟨.octet b ⟨hq, ho, hc⟩ i, l', rfl⟩

theorem container_iff {k : Kind} {l r : Bytes} :
    container k.opening k.closing .code 1 l = some r ↔
      ∃ i : Inside k 1, l = i.text ++ k.closing :: r := by
  have hclose : ∀ t, container k.opening k.closing .code 1 (k.closing :: t) = some t := by
    intro t
    rw [container_code_cons _ _ _ k.closing_ne_quote, if_neg (k.closing_ne_opening k), if_pos rfl,
      if_pos rfl]
  constructor
  · intro h
    obtain ⟨i, l', rfl⟩ := exists_inside le_rfl (by decide) h
    rw [i.container le_rfl, hclose] at h
    cases h
    exact ⟨i, rfl⟩
  · rintro ⟨i, rfl⟩
    rw [i.container le_rfl, hclose]

/-! ## Values -/

theorem literal_iff {word l r : Bytes} : literal word l = some r ↔ l = word ++ r := by
  rw [literal]
  constructor
  · intro h
    split_ifs at h with hbegins
    obtain ⟨t, rfl⟩ := hbegins
    rw [List.drop_left] at h
    cases h
    rfl
  · rintro rfl
    rw [if_pos (List.prefix_append word r), List.drop_left]

theorem LooseNumber.eq_cons (n : LooseNumber) :
    ∃ b t, n.text = b :: t ∧ (b = minus || isdigit b) = true := by
  obtain ⟨b, t, h, hb⟩ := n.int.eq_cons
  rw [LooseNumber.text]
  cases n.negative with
  | true => exact ⟨minus, _, rfl, rfl⟩
  | false =>
      refine ⟨b, t ++ (n.fracText ++ n.expText), by rw [h]; rfl, ?_⟩
      rw [hb, Bool.or_true]

namespace Loose

theorem solid (v : Loose) (r : Bytes) : Solid (v.text ++ r) := by
  cases v with
  | literal l => cases l <;> rfl
  | number n =>
      obtain ⟨b, t, h, hb⟩ := n.eq_cons
      rw [Loose.text, h, Solid, List.cons_append, startsWith]
      rcases Bool.or_eq_true_iff.mp hb with hb | hb
      · rw [of_decide_eq_true hb]
        rfl
      · exact isspace_of_isdigit hb
  | string s => rfl
  | container k i => cases k <;> rfl

theorem value_text (v : Loose) {r : Bytes} (hr : NumberStops r) :
    Scan.value (v.text ++ r) = some r := by
  cases v with
  | literal l => cases l <;> rfl
  | number n =>
      obtain ⟨b, t, h, hb⟩ := n.eq_cons
      have hvalue : Scan.value (n.text ++ r) = Scan.number (n.text ++ r) := by
        rw [h]
        exact value_of_number hb (t ++ r)
      rw [Loose.text, hvalue, n.number_text hr]
  | string s =>
      rw [Loose.text, List.cons_append, List.append_assoc]
      exact string_iff.mpr ⟨s, rfl⟩
  | container k i =>
      rw [Loose.text, List.cons_append, List.append_assoc, value_opening]
      exact container_iff.mpr ⟨i, rfl⟩

theorem exists_of_value {l r : Bytes} (h : Scan.value l = some r) :
    ∃ v : Loose, l = v.text ++ r := by
  have hcontainer : ∀ (k : Kind) {t : Bytes},
      Scan.container k.opening k.closing .code 1 t = some r →
        ∃ v : Loose, k.opening :: t = v.text ++ r := by
    intro k t h
    obtain ⟨i, rfl⟩ := container_iff.mp h
    exact ⟨.container k i, by simp [Loose.text]⟩
  cases l with
  | nil => cases h
  | cons c t =>
      rw [Scan.value] at h
      split_ifs at h with hq hbrace hbracket htrue hfalse hnull hnumber
      · obtain ⟨s, rfl⟩ := string_iff.mp h
        exact ⟨.string s, by simp [Loose.text, hq]⟩
      · rw [hbrace]
        exact hcontainer .object h
      · rw [hbracket]
        exact hcontainer .array h
      · exact ⟨.literal .true, literal_iff.mp h⟩
      · exact ⟨.literal .false, literal_iff.mp h⟩
      · exact ⟨.literal .null, literal_iff.mp h⟩
      · obtain ⟨n, hn⟩ := LooseNumber.exists_of_number h hnumber
        exact ⟨.number n, hn⟩

/-- White space and a value, as the slice of the value. -/
theorem skipped_text (w : Spaces) (v : Loose) {r : Bytes} (hr : NumberStops r) :
    skipped (w.text ++ (v.text ++ r)) = some ⟨v.text ++ r, r⟩ := by
  rw [skipped, w.blanks (v.solid r), v.value_text hr]
  rfl

theorem exists_of_skipped {l : Bytes} {x : Slice} (h : skipped l = some x) :
    ∃ (w : Spaces) (v : Loose), l = w.text ++ (v.text ++ x.stop) ∧
      x = ⟨v.text ++ x.stop, x.stop⟩ := by
  obtain ⟨r, hr, rfl⟩ := Option.map_eq_some_iff.mp h
  obtain ⟨w, hw⟩ := exists_spaces l
  obtain ⟨v, hv⟩ := exists_of_value hr
  refine ⟨w, v, ?_, ?_⟩
  · rw [← hv]
    exact hw
  · rw [← hv]

end Loose

/-! ## Members -/

/-- A member with the white space around its parts. -/
structure Entry (τ : Type) where
  before : Spaces
  middle : Spaces
  front : Spaces
  body : τ
  behind : Spaces

/-- What stands between the braces of an object. -/
inductive Members (τ : Type) where
  | none (w : Spaces)
  | last (e : Entry τ)
  | more (e : Entry τ) (ms : Members τ)

/-- Members by their trees: the key of each, the text of its value, and the member that is
read if something follows. -/
structure MemberSyntax (τ μ : Type) where
  key : τ → Bytes
  enclosed : ∀ t, Enclosed (key t)
  text : τ → Bytes
  field : τ → Bytes → μ

namespace MemberSyntax

variable {τ μ : Type} (g : MemberSyntax τ μ)

def entryText (e : Entry τ) : Bytes :=
  e.before.text ++ quote :: (g.key e.body ++ quote :: (e.middle.text ++
    colon :: (e.front.text ++ (g.text e.body ++ e.behind.text))))

def membersText : Members τ → Bytes
  | .none w => w.text
  | .last e => g.entryText e
  | .more e ms => g.entryText e ++ comma :: membersText ms

/-- The members that are read off a tree if `r` follows. -/
def fields (r : Bytes) : Members τ → List μ
  | .none _ => []
  | .last e => [g.field e.body (e.behind.text ++ r)]
  | .more e ms =>
      g.field e.body (e.behind.text ++ comma :: (g.membersText ms ++ r)) :: fields r ms

/-- `read` takes exactly the values of the trees. -/
structure Describes (read : Bytes → Bytes → Option (μ × Bytes)) : Prop where
  complete : ∀ (t : τ) (w : Spaces) {r : Bytes}, NumberStops r →
    read (g.key t) (w.text ++ (g.text t ++ r)) = some (g.field t r, r)
  sound : ∀ {k l r : Bytes} {x : μ}, Enclosed k → read k l = some (x, r) →
    ∃ (w : Spaces) (t : τ), g.key t = k ∧ l = w.text ++ (g.text t ++ r) ∧ x = g.field t r

variable {g} {read : Bytes → Bytes → Option (μ × Bytes)}

theorem isNumberChar_of_isspace {b : UInt8} (h : isspace b = true) : isNumberChar b = false := by
  refine Bool.eq_false_iff.mpr fun hnumber => ?_
  simp only [isNumberChar, Bool.or_eq_true, decide_eq_true_eq] at hnumber
  rcases hnumber with ((((hb | rfl) | rfl) | rfl) | rfl) | rfl
  · rw [isspace_of_isdigit hb] at h
    cases h
  all_goals exact absurd h (by decide)

theorem ends_symbol (w : Spaces) {b : UInt8} (hb : b = comma ∨ b = rbrace) (r : Bytes) :
    NumberStops (w.text ++ b :: r) := by
  obtain ⟨text, hspace⟩ := w
  cases text with
  | nil => rcases hb with rfl | rfl <;> rfl
  | cons c t => exact isNumberChar_of_isspace (hspace c List.mem_cons_self)

/-- A member is taken with the comma behind it, or up to the closing brace. -/
theorem Describes.member_text (hg : g.Describes read) (e : Entry τ) {b : UInt8}
    (hb : b = comma ∨ b = rbrace) (r : Bytes) : member read (g.entryText e ++ b :: r) =
      some (g.field e.body (e.behind.text ++ b :: r), if b = comma then r else b :: r) := by
  have hread := hg.complete e.body e.front (ends_symbol e.behind hb r)
  have htext : g.entryText e ++ b :: r = e.before.text ++ quote :: (g.key e.body ++
      quote :: (e.middle.text ++ colon :: (e.front.text ++
        (g.text e.body ++ (e.behind.text ++ b :: r))))) := by
    simp [entryText]
  rw [htext, member_eq_some]
  refine ⟨_, _, _, e.behind.text ++ b :: r, content_iff.mpr
    ⟨e.before, ⟨g.key e.body, g.enclosed e.body⟩, rfl, rfl⟩,
    (symbol_iff rfl).mpr ⟨e.middle, rfl⟩, ?_, ?_⟩
  · rw [Slice.text_append]
    exact hread
  · rw [separator_iff]
    refine ⟨e.behind, ?_⟩
    rcases hb with rfl | rfl
    · exact .inl rfl
    · exact .inr ⟨r, rfl, rfl⟩

theorem Describes.exists_of_member (hg : g.Describes read) {l r : Bytes} {x : μ}
    (h : member read l = some (x, r)) : ∃ e : Entry τ,
      l = g.entryText e ++ comma :: r ∧ x = g.field e.body (e.behind.text ++ comma :: r) ∨
        ∃ t, r = rbrace :: t ∧ l = g.entryText e ++ r ∧
          x = g.field e.body (e.behind.text ++ r) := by
  obtain ⟨key, l₁, l₂, l₃, hkey, hcolon, hx, hsep⟩ := member_eq_some.mp h
  obtain ⟨before, k, rfl, rfl⟩ := content_iff.mp hkey
  obtain ⟨middle, rfl⟩ := (symbol_iff rfl).mp hcolon
  rw [Slice.text_append] at hx
  obtain ⟨front, t, hk, rfl, rfl⟩ := hg.sound k.enclosed hx
  obtain ⟨behind, hbehind⟩ := separator_iff.mp hsep
  refine ⟨⟨before, middle, front, t, behind⟩, ?_⟩
  rcases hbehind with rfl | ⟨t', rfl, rfl⟩
  · exact .inl ⟨by simp [entryText, hk], rfl⟩
  · exact .inr ⟨t', rfl, by simp [entryText, hk], rfl⟩

theorem symbol_entry (e : Entry τ) (r : Bytes) : symbol rbrace (g.entryText e ++ r) = none := by
  have hquote : blanks (g.entryText e ++ r) = quote :: (g.key e.body ++ quote ::
      (e.middle.text ++ colon :: (e.front.text ++ (g.text e.body ++ e.behind.text)))) ++ r := by
    rw [entryText, List.append_assoc]
    exact e.before.blanks rfl
  rw [symbol, hquote]
  rfl

/-- The members of a tree are taken. -/
theorem Describes.members_text (hg : g.Describes read) (hshrinks : Shrinks read) (ms : Members τ)
    (r : Bytes) : members read (g.membersText ms ++ rbrace :: r) =
      some (g.fields (rbrace :: r) ms, r) := by
  have hclose : ∀ w : Spaces, members read (w.text ++ rbrace :: r) = some ([], r) :=
    fun w => members_close ((symbol_iff rfl).mpr ⟨w, rfl⟩)
  induction ms with
  | none w => exact hclose w
  | last e =>
      have hmember := hg.member_text e (.inr rfl) r
      rw [membersText, members_cons hshrinks (symbol_entry e _), hmember]
      have hend : members read (rbrace :: r) = some ([], r) := hclose ⟨[], List.forall_mem_nil _⟩
      have hrest : (if rbrace = comma then r else rbrace :: r) = rbrace :: r := if_neg (by decide)
      simp only [bind, Option.bind_some, hrest, hend]
      rfl
  | more e ms ih =>
      have hmember := hg.member_text e (.inl rfl) (g.membersText ms ++ rbrace :: r)
      rw [membersText, List.append_assoc, List.cons_append,
        members_cons hshrinks (symbol_entry e _), hmember, if_pos rfl]
      simp only [bind, Option.bind_some, ih]
      rfl

/-- What is taken are the members of a tree. -/
theorem Describes.exists_of_members (hg : g.Describes read) {l r : Bytes} {xs : List μ} {n : Nat}
    (h : membersWithin read n l = some (xs, r)) :
    ∃ ms : Members τ, l = g.membersText ms ++ rbrace :: r ∧ xs = g.fields (rbrace :: r) ms := by
  induction n generalizing l xs with
  | zero => cases h
  | succ n ih =>
      rcases membersWithin_succ h with ⟨rfl, hclose⟩ | ⟨x, l', xs', hx, hrest, rfl⟩
      · obtain ⟨w, rfl⟩ := (symbol_iff rfl).mp hclose
        exact ⟨.none w, rfl, rfl⟩
      · obtain ⟨e, ⟨rfl, rfl⟩ | ⟨t, rfl, rfl, rfl⟩⟩ := hg.exists_of_member hx
        · obtain ⟨ms, rfl, rfl⟩ := ih hrest
          exact ⟨.more e ms, by simp [membersText], rfl⟩
        · -- behind the last member the closing brace is next
          cases n with
          | zero => cases hrest
          | succ n =>
              have hbrace : symbol rbrace (rbrace :: t) = some t := rfl
              rw [membersWithin, hbrace] at hrest
              cases hrest
              exact ⟨.last e, rfl, rfl⟩

end MemberSyntax

/-! ## Messages -/

/-- A member of an error object. -/
inductive ErrorTree where
  | code (n : IntLiteral)
  | message (s : Quoted)
  | other (key : Quoted) (h : key.text ≠ ascii "code" ∧ key.text ≠ ascii "message") (v : Loose)

/-- The keys of a message whose values the parser keeps. -/
def topKeys : List Bytes :=
  [ascii "method", ascii "id", ascii "params", ascii "result", ascii "error"]

/-- A member of a message. -/
inductive TopTree where
  | method (s : Quoted)
  | id (n : IntLiteral)
  | params (v : Loose)
  | result (v : Loose)
  | error (ms : Members ErrorTree)
  | other (key : Quoted) (h : key.text ∉ topKeys) (v : Loose)

/-- Texts without quotes and backslashes. -/
theorem enclosed_name {name : Bytes} (h : name.all isStrChar = true) : Enclosed name := by
  have hplain := (Str.plain name h).enclosed
  rwa [Str.plain_text] at hplain

def Quoted.value (s : Quoted) : Bytes := quote :: (s.text ++ [quote])

namespace ErrorTree

def key : ErrorTree → Bytes
  | .code _ => ascii "code"
  | .message _ => ascii "message"
  | .other key _ _ => key.text

theorem key_enclosed (t : ErrorTree) : Enclosed t.key := by
  cases t with
  | code n => exact enclosed_name (show (ascii "code").all isStrChar = true by decide)
  | message s => exact enclosed_name (show (ascii "message").all isStrChar = true by decide)
  | other key h v => exact key.enclosed

def text : ErrorTree → Bytes
  | .code n => n.text
  | .message s => s.value
  | .other _ _ v => v.text

def field (t : ErrorTree) (r : Bytes) : ErrorField :=
  match t with
  | .code n => .code n.value
  | .message s => .message ⟨s.text ++ quote :: r, quote :: r⟩
  | .other _ _ v => .other ⟨v.text ++ r, r⟩

def grammar : MemberSyntax ErrorTree ErrorField := ⟨key, key_enclosed, text, field⟩

end ErrorTree

theorem content_value (w : Spaces) (s : Quoted) (r : Bytes) :
    content (w.text ++ (s.value ++ r)) = some (⟨s.text ++ quote :: r, quote :: r⟩, r) := by
  rw [Quoted.value, List.cons_append, List.append_assoc]
  exact content_iff.mpr ⟨w, s, rfl, rfl⟩

theorem exists_of_content {l r : Bytes} {x : Slice} (h : content l = some (x, r)) :
    ∃ (w : Spaces) (s : Quoted), l = w.text ++ (s.value ++ r) ∧
      x = ⟨s.text ++ quote :: r, quote :: r⟩ := by
  obtain ⟨w, s, rfl, rfl⟩ := content_iff.mp h
  exact ⟨w, s, by simp [Quoted.value], rfl⟩

theorem ErrorTree.describes : ErrorTree.grammar.Describes errorField where
  complete t w r hr := by
    cases t with
    | code n =>
        change errorField (ascii "code") _ = _
        rw [errorField, if_pos rfl]
        exact congrArg (Option.map _) (int_literal w n hr)
    | message s =>
        change errorField (ascii "message") _ = _
        rw [errorField, if_neg (by decide), if_pos rfl]
        exact congrArg (Option.map _) (content_value w s r)
    | other key h v =>
        change errorField key.text _ = _
        rw [errorField, if_neg h.1, if_neg h.2]
        exact congrArg (Option.map _) (v.skipped_text w hr)
  sound := by
    intro k l r x hk h
    rw [errorField] at h
    split_ifs at h with hcode hmessage
    · obtain ⟨⟨n, r'⟩, hn, heq⟩ := Option.map_eq_some_iff.mp h
      cases heq
      obtain ⟨w, n, rfl, rfl⟩ := exists_of_int hn
      exact ⟨w, .code n, hcode.symm, rfl, rfl⟩
    · obtain ⟨⟨s, r'⟩, hs, heq⟩ := Option.map_eq_some_iff.mp h
      cases heq
      obtain ⟨w, s, rfl, rfl⟩ := exists_of_content hs
      exact ⟨w, .message s, hmessage.symm, rfl, rfl⟩
    · obtain ⟨v, hv, heq⟩ := Option.map_eq_some_iff.mp h
      cases heq
      obtain ⟨w, t, rfl, hx⟩ := Loose.exists_of_skipped hv
      refine ⟨w, .other ⟨k, hk⟩ ⟨hcode, hmessage⟩ t, rfl, rfl, ?_⟩
      rw [hx]
      rfl

namespace TopTree

def key : TopTree → Bytes
  | .method _ => ascii "method"
  | .id _ => ascii "id"
  | .params _ => ascii "params"
  | .result _ => ascii "result"
  | .error _ => ascii "error"
  | .other key _ _ => key.text

theorem topKeys_plain : ∀ key ∈ topKeys, key.all isStrChar = true := by decide

theorem key_enclosed (t : TopTree) : Enclosed t.key := by
  cases t with
  | other key h v => exact key.enclosed
  | _ => exact enclosed_name (topKeys_plain _ (by simp [key, topKeys]))

def text : TopTree → Bytes
  | .method s => s.value
  | .id n => n.text
  | .params v => v.text
  | .result v => v.text
  | .error ms => lbrace :: (ErrorTree.grammar.membersText ms ++ [rbrace])
  | .other _ _ v => v.text

def field (t : TopTree) (r : Bytes) : TopField :=
  match t with
  | .method s => .method ⟨s.text ++ quote :: r, quote :: r⟩
  | .id n => .id n.value
  | .params v => .params ⟨v.text ++ r, r⟩
  | .result v => .result ⟨v.text ++ r, r⟩
  | .error ms => .error (ErrorTree.grammar.fields (rbrace :: r) ms)
      ⟨lbrace :: (ErrorTree.grammar.membersText ms ++ rbrace :: r), r⟩
  | .other _ _ v => .other ⟨v.text ++ r, r⟩

def grammar : MemberSyntax TopTree TopField := ⟨key, key_enclosed, text, field⟩

end TopTree

/-! ## Objects -/

namespace MemberSyntax

variable {τ μ : Type} {g : MemberSyntax τ μ} {read : Bytes → Bytes → Option (μ × Bytes)}

/-- The objects that are taken are those of the trees. -/
theorem Describes.object_iff (hg : g.Describes read) (hshrinks : Shrinks read) {l r : Bytes}
    {xs : List μ} : object read l = some (xs, r) ↔ ∃ (w : Spaces) (ms : Members τ),
      l = w.text ++ lbrace :: (g.membersText ms ++ rbrace :: r) ∧
        xs = g.fields (rbrace :: r) ms := by
  constructor
  · intro h
    obtain ⟨l', hl', hms⟩ := Option.bind_eq_some_iff.mp h
    obtain ⟨w, rfl⟩ := (symbol_iff rfl).mp hl'
    obtain ⟨ms, rfl, rfl⟩ := hg.exists_of_members hms
    exact ⟨w, ms, rfl, rfl⟩
  · rintro ⟨w, ms, rfl, rfl⟩
    rw [object, (symbol_iff rfl).mpr ⟨w, rfl⟩, Option.bind_some, hg.members_text hshrinks]

end MemberSyntax

theorem topField_other {key : Bytes} (h : key ∉ topKeys) (l : Bytes) :
    topField key l = (skipped l).map fun v => (.other v, v.stop) := by
  simp only [topKeys, List.mem_cons, List.not_mem_nil, or_false, not_or] at h
  obtain ⟨hmethod, hid, hparams, hresult, herror⟩ := h
  rw [topField, if_neg hmethod, if_neg hid, if_neg hparams, if_neg hresult, if_neg herror, ite_self]

theorem TopTree.describes : TopTree.grammar.Describes topField where
  complete t w r hr := by
    cases t with
    | method s => exact congrArg (Option.map _) (content_value w s r)
    | id n => exact congrArg (Option.map _) (int_literal w n hr)
    | params v => exact congrArg (Option.map _) (v.skipped_text w hr)
    | result v => exact congrArg (Option.map _) (v.skipped_text w hr)
    | error ms =>
        have hblanks : blanks (w.text ++ (text (.error ms) ++ r)) =
            lbrace :: (ErrorTree.grammar.membersText ms ++ rbrace :: r) := by
          rw [text, List.cons_append, List.append_assoc]
          exact w.blanks rfl
        have hobject : object errorField (w.text ++ (text (.error ms) ++ r)) =
            some (ErrorTree.grammar.fields (rbrace :: r) ms, r) :=
          (ErrorTree.describes.object_iff errorField_shrinks).mpr ⟨w, ms, by simp [text], rfl⟩
        change topField (ascii "error") (w.text ++ (text (.error ms) ++ r)) = _
        rw [topField, if_neg (by decide), if_neg (by decide), if_neg (by decide),
          if_neg (by decide), if_neg (by decide), if_pos rfl, hobject, hblanks]
        rfl
    | other key h v =>
        change topField key.text _ = _
        rw [topField_other h]
        exact congrArg (Option.map _) (v.skipped_text w hr)
  sound := by
    intro k l r x hk h
    by_cases hother : k ∉ topKeys
    · rw [topField_other hother] at h
      obtain ⟨v, hv, heq⟩ := Option.map_eq_some_iff.mp h
      cases heq
      obtain ⟨w, t, rfl, hx⟩ := Loose.exists_of_skipped hv
      exact ⟨w, .other ⟨k, hk⟩ hother t, rfl, rfl, congrArg TopField.other hx⟩
    · have hkey := not_not.mp hother
      simp only [topKeys, List.mem_cons, List.not_mem_nil, or_false] at hkey
      rcases hkey with rfl | rfl | rfl | rfl | rfl
      all_goals obtain ⟨y, hy, heq⟩ := Option.map_eq_some_iff.mp h
      all_goals cases heq
      · obtain ⟨w, s, rfl, hx⟩ := exists_of_content hy
        exact ⟨w, .method s, rfl, rfl, congrArg TopField.method hx⟩
      · obtain ⟨w, n, rfl, hx⟩ := exists_of_int hy
        exact ⟨w, .id n, rfl, rfl, congrArg TopField.id hx⟩
      · obtain ⟨w, t, rfl, hx⟩ := Loose.exists_of_skipped hy
        exact ⟨w, .params t, rfl, rfl, congrArg TopField.params hx⟩
      · obtain ⟨w, t, rfl, hx⟩ := Loose.exists_of_skipped hy
        exact ⟨w, .result t, rfl, rfl, congrArg TopField.result hx⟩
      · obtain ⟨w, ms, rfl, hx⟩ := (ErrorTree.describes.object_iff errorField_shrinks).mp hy
        refine ⟨w, .error ms, rfl, by simp [TopTree.grammar, text], ?_⟩
        have hblanks :=
          w.blanks (l := lbrace :: (ErrorTree.grammar.membersText ms ++ rbrace :: y.2)) rfl
        rw [hx, hblanks]
        rfl

/-! ## Main result -/

/-- The parser accepts exactly the texts within its limit that begin with the object of a
tree, and reads the message off the members of the tree. -/
theorem parse_language (jsonStr : Option Bytes) (maxBytes : Nat) (msg : MCPMessage) :
    (MCPMessage.parse jsonStr maxBytes = .ok msg ∧ msg.valid = true) ↔
      ∃ s, jsonStr = some s ∧ s.length ≤ maxBytes ∧
        ∃ (w : Spaces) (ms : Members TopTree) (rest : Bytes),
          s = w.text ++ lbrace :: (TopTree.grammar.membersText ms ++ rbrace :: rest) ∧
            msg = .ofFields s (TopTree.grammar.fields (rbrace :: rest) ms) := by
  constructor
  · rintro ⟨hparse, hvalid⟩
    obtain ⟨s, fields, rest, rfl, hmax, htop, rfl⟩ := parse_valid hparse hvalid
    obtain ⟨w, ms, hs, rfl⟩ := (TopTree.describes.object_iff topField_shrinks).mp htop
    exact ⟨s, rfl, hmax, w, ms, rest, hs, rfl⟩
  · rintro ⟨s, rfl, hmax, w, ms, rest, hs, rfl⟩
    have htop : top s = some (TopTree.grammar.fields (rbrace :: rest) ms, rest) :=
      (TopTree.describes.object_iff topField_shrinks).mpr ⟨w, ms, hs, rfl⟩
    have hparse := parse_refines hmax
    rw [htop] at hparse
    exact ⟨hparse, rfl⟩

end McpToolkit
