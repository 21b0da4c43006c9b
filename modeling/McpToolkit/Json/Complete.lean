import McpToolkit.Json.Locality
import McpToolkit.Json.Nesting
/-!
# The scanners accept the grammar

Every part of a syntax tree is taken off exactly: strings, numbers, containers
up to the depth limit, and from these the members of an object.
-/

namespace McpToolkit

open JsonParser Scan

/-! ## White space and strings -/

theorem Ws.blanks (w : Ws) (r : Bytes) : Scan.blanks (w.text ++ r) = Scan.blanks r :=
  List.dropWhile_append_of_pos fun b hb => isspace_of_isBlank (w.blank b hb)

/-- A text that does not start with white space. -/
def Solid (l : Bytes) : Prop := startsWith isspace l = false

theorem Solid.blanks {l : Bytes} (h : Solid l) : Scan.blanks l = l := by
  cases l with
  | nil => rfl
  | cons b t =>
      rw [Solid, startsWith] at h
      rw [Scan.blanks, List.dropWhile_cons_of_neg (by rw [h]; exact Bool.false_ne_true)]

theorem Ws.blanks_solid (w : Ws) {l : Bytes} (h : Solid l) : Scan.blanks (w.text ++ l) = l := by
  rw [w.blanks, h.blanks]

theorem isHex_ne {b : UInt8} (h : isHex b) : b ≠ quote ∧ b ≠ backslash := by
  constructor <;> rintro rfl <;> exact absurd h (by decide)

theorem StrChar.enclosed (c : StrChar) {t : Bytes} (h : Enclosed t) : Enclosed (c.text ++ t) := by
  cases c with
  | plain b hb => exact h.cons hb.2.1 hb.2.2
  | escape e he => exact h.escape
  | unicode a b c d hx =>
      simp only [List.forall_mem_cons] at hx
      obtain ⟨ha, hb, hc, hd, -⟩ := hx
      have hne := fun {x : UInt8} (hx : isHex x = true) {t : Bytes} (h : Enclosed t) =>
        h.cons (isHex_ne hx).1 (isHex_ne hx).2
      exact (hne ha (hne hb (hne hc (hne hd h)))).escape

theorem Str.enclosed (s : Str) : Enclosed s.text := by
  obtain ⟨cs⟩ := s
  induction cs with
  | nil => exact Enclosed.nil
  | cons c cs ih => exact c.enclosed ih

theorem content_str (w : Ws) (s : Str) (r : Bytes) :
    content (w.text ++ quote :: (s.text ++ quote :: r)) =
      some (⟨s.text ++ quote :: r, quote :: r⟩, r) :=
  content_eq_some.mpr ⟨_, w.blanks_solid rfl, string_enclosed s.enclosed r, rfl⟩

theorem symbol_ws (w : Ws) {b : UInt8} (hb : isspace b = false) (r : Bytes) :
    symbol b (w.text ++ b :: r) = some r :=
  symbol_eq_some.mpr (w.blanks_solid hb)

theorem separator_comma (w : Ws) (r : Bytes) : separator (w.text ++ comma :: r) = some r := by
  rw [separator, w.blanks_solid (by rfl)]
  rfl

theorem separator_rbrace (w : Ws) (r : Bytes) :
    separator (w.text ++ rbrace :: r) = some (rbrace :: r) := by
  rw [separator, w.blanks_solid (by rfl)]
  rfl

/-! ## Numbers -/

/-- What may follow a number. -/
structure EndsNumber (r : Bytes) : Prop where
  digit : startsWith isdigit r = false
  frac : startsWith (· = point) r = false
  exp : startsWith (fun b => b = lowerE || b = upperE) r = false

theorem dropWhile_of_startsWith {q : UInt8 → Bool} {l : Bytes} (h : startsWith q l = false) :
    l.dropWhile q = l := by
  cases l with
  | nil => rfl
  | cons b t =>
      rw [startsWith] at h
      rw [List.dropWhile_cons_of_neg (by rw [h]; exact Bool.false_ne_true)]

theorem Digits.dropWhile (d : Digits) {r : Bytes} (h : startsWith isdigit r = false) :
    (d.text ++ r).dropWhile isdigit = r := by
  rw [List.dropWhile_append_of_pos d.digit, dropWhile_of_startsWith h]

theorem Digits.eq_cons (d : Digits) : ∃ b t, d.text = b :: t ∧ isdigit b = true := by
  obtain ⟨b, t, h⟩ := List.exists_cons_of_ne_nil d.ne_nil
  exact ⟨b, t, h, d.digit b (h ▸ List.mem_cons_self)⟩

theorem Digits.startsWith (d : Digits) (r : Bytes) : Scan.startsWith isdigit (d.text ++ r) = true := by
  obtain ⟨b, t, h, hb⟩ := d.eq_cons
  rw [h]
  exact hb

/-- A run of digits starts with nothing else. -/
theorem Digits.startsWith_of (d : Digits) {q : UInt8 → Bool} (hq : ∀ b, isdigit b → q b = false)
    (r : Bytes) : Scan.startsWith q (d.text ++ r) = false := by
  obtain ⟨b, t, h, hb⟩ := d.eq_cons
  rw [h]
  exact hq b hb

theorem sign_of_isdigit (b : UInt8) (h : isdigit b) :
    (decide (b = plus) || decide (b = minus)) = false := by
  rw [Bool.or_eq_false_iff, decide_eq_false_iff_not, decide_eq_false_iff_not]
  constructor <;> rintro rfl <;> exact absurd h (by decide)

theorem minus_of_isdigit (b : UInt8) (h : isdigit b) : decide (b = minus) = false :=
  (Bool.or_eq_false_iff.mp (sign_of_isdigit b h)).2

theorem Exponent.exponent (e : Exponent) {r : Bytes} (hr : startsWith isdigit r = false) :
    Scan.exponent (e.text ++ r) = r := by
  have hstart : ∀ t, startsWith (fun b => b = lowerE || b = upperE) (e.letter :: t) = true := by
    intro t
    rcases e.isLetter with h | h <;> rw [h] <;> rfl
  rw [Exponent.text, List.cons_append, List.cons_append, Scan.exponent, if_pos (hstart _),
    List.tail_cons]
  cases hsign : e.sign with
  | none =>
      rw [Option.toList_none, List.nil_append, takeIf, if_neg]
      · exact e.digits.dropWhile hr
      · rw [e.digits.startsWith_of sign_of_isdigit]
        exact Bool.false_ne_true
  | some b =>
      have hb : startsWith (fun b => b = plus || b = minus) (b :: (e.digits.text ++ r)) = true := by
        rcases e.isSign b (by rw [hsign]; rfl) with rfl | rfl <;> rfl
      rw [Option.toList_some, List.singleton_append, List.cons_append, takeIf, if_pos hb]
      exact e.digits.dropWhile hr

namespace Number

variable (n : Number) {r : Bytes}

theorem exponent_expText (hr : EndsNumber r) : exponent (n.expText ++ r) = r := by
  rw [expText]
  split
  · rw [List.nil_append, exponent, hr.exp]
    rfl
  · exact Exponent.exponent _ hr.digit

/-- What stands before an exponent or the end of a number. -/
theorem expText_ends (hr : EndsNumber r) : startsWith isdigit (n.expText ++ r) = false ∧
    startsWith (· = point) (n.expText ++ r) = false := by
  rw [expText]
  split
  · exact ⟨hr.digit, hr.frac⟩
  · next e _ =>
      rw [Exponent.text, List.cons_append, List.cons_append]
      rcases e.isLetter with h | h <;> rw [h] <;> exact ⟨rfl, rfl⟩

theorem fraction_fracText (hr : EndsNumber r) :
    fraction (n.fracText ++ (n.expText ++ r)) = n.expText ++ r := by
  obtain ⟨hdigit, hpoint⟩ := n.expText_ends hr
  rw [fracText]
  split
  · rw [List.nil_append, fraction, hpoint]
    rfl
  · have hstart : ∀ t, startsWith (· = point) (point :: t) = true := fun t => rfl
    rw [List.cons_append, fraction, if_pos (hstart _), List.tail_cons]
    exact Digits.dropWhile _ hdigit

theorem fracText_ends (hr : EndsNumber r) :
    startsWith isdigit (n.fracText ++ (n.expText ++ r)) = false := by
  rw [fracText]
  split
  · exact (n.expText_ends hr).1
  · rfl

theorem number_text (hr : EndsNumber r) : number (n.text ++ r) = some r := by
  have hsplit : n.text ++ r = (if n.negative then [minus] else []) ++
      (n.int.text ++ (n.fracText ++ (n.expText ++ r))) := by
    simp [text]
  have hrest : exponent (fraction ((n.int.text ++ (n.fracText ++ (n.expText ++ r))).dropWhile
      isdigit)) = r := by
    rw [n.int.dropWhile (n.fracText_ends hr), n.fraction_fracText hr, n.exponent_expText hr]
  rw [hsplit, number]
  cases n.negative with
  | true =>
      have htake : takeIf (· = minus) ([minus] ++ (n.int.text ++ (n.fracText ++ (n.expText ++ r))))
          = (true, n.int.text ++ (n.fracText ++ (n.expText ++ r))) := rfl
      rw [if_pos rfl, htake]
      dsimp only
      rw [n.int.startsWith, hrest]
      rfl
  | false =>
      have htake : takeIf (· = minus) (n.int.text ++ (n.fracText ++ (n.expText ++ r)))
          = (false, n.int.text ++ (n.fracText ++ (n.expText ++ r))) := by
        rw [takeIf, n.int.startsWith_of minus_of_isdigit]
        rfl
      rw [if_neg Bool.false_ne_true, List.nil_append, htake]
      dsimp only
      rw [hrest]
      rfl

end Number

/-! ## Integers -/

theorem natFrom_cons (n : Nat) (b : UInt8) (ds : Bytes) :
    natFrom n (b :: ds) = natFrom (n * 10 + digitValue b) ds := by
  rw [natFrom, List.foldl_cons, natFrom]

theorem natFrom_concat (n : Nat) (ds : Bytes) (b : UInt8) :
    natFrom n (ds ++ [b]) = natFrom n ds * 10 + digitValue b := by
  rw [natFrom, List.foldl_append, natFrom]
  rfl

theorem le_natFrom (ds : Bytes) : ∀ n, n ≤ natFrom n ds := by
  induction ds with
  | nil => exact fun n => le_rfl
  | cons b ds ih =>
      intro n
      have := ih (n * 10 + digitValue b)
      rw [natFrom_cons]
      omega

theorem digits_natFrom {r : Bytes} (hr : startsWith isdigit r = false) {ds : Bytes} :
    ∀ {n : Nat}, (∀ b ∈ ds, isdigit b) → natFrom n ds ≤ intMax →
      digits n (ds ++ r) = some (natFrom n ds, r) := by
  induction ds with
  | nil =>
      intro n _ _
      rw [List.nil_append]
      cases r with
      | nil => rfl
      | cons b t =>
          rw [startsWith] at hr
          rw [digits, if_neg (by rw [hr]; exact Bool.false_ne_true)]
          rfl
  | cons b ds ih =>
      intro n hds hmax
      rw [List.forall_mem_cons] at hds
      rw [natFrom_cons] at hmax ⊢
      have hle := le_natFrom ds (n * 10 + digitValue b)
      rw [List.cons_append, digits, if_pos hds.1, if_neg (by omega)]
      exact ih hds.2 hmax

theorem Number.text_of_toInt? {n : Number} {k : Int} (hn : n.toInt? = some k) :
    n.text = (if n.negative then [minus] else []) ++ n.int.text ∧
      k = if n.negative then -(natFrom 0 n.int.text : Int) else (natFrom 0 n.int.text : Int) := by
  rw [Number.toInt?] at hn
  obtain ⟨⟨hfrac, hexp⟩, hk⟩ := Option.ite_none_right_eq_some.mp hn
  rw [Option.isNone_iff_eq_none] at hfrac hexp
  refine ⟨?_, (Option.some.inj hk).symm⟩
  rw [Number.text, Number.fracText, Number.expText, hfrac, hexp, List.append_nil,
    List.append_nil]

theorem Number.solid (n : Number) (r : Bytes) : Solid (n.text ++ r) := by
  rw [Solid, Number.text, List.append_assoc, List.append_assoc, List.append_assoc]
  split
  · rfl
  · exact n.int.startsWith_of (fun b hb => isspace_of_isdigit hb) _

/-- An integer literal in the range of `int` is read as its value. -/
theorem int_number (w : Ws) {n : Number} {k : Int} {r : Bytes} (hn : n.toInt? = some k)
    (hk : k.natAbs ≤ intMax) (hr : EndsNumber r) : int (w.text ++ (n.text ++ r)) = some (k, r) := by
  obtain ⟨htext, hvalue⟩ := Number.text_of_toInt? hn
  have hmax : natFrom 0 n.int.text ≤ intMax := by
    rw [hvalue] at hk
    split at hk <;> omega
  have hdigits := digits_natFrom hr.digit n.int.digit hmax
  rw [int, w.blanks_solid (n.solid r), htext]
  cases hneg : n.negative with
  | true =>
      rw [hneg, if_pos rfl] at hvalue
      have htake : takeIf (· = minus) ([minus] ++ n.int.text ++ r) =
          (true, n.int.text ++ r) := rfl
      rw [if_pos rfl, htake]
      dsimp only
      rw [n.int.startsWith, hdigits, hvalue]
      rfl
  | false =>
      rw [hneg, if_neg Bool.false_ne_true] at hvalue
      have htake : takeIf (· = minus) (n.int.text ++ r) = (false, n.int.text ++ r) := by
        rw [takeIf, n.int.startsWith_of minus_of_isdigit]
        rfl
      rw [if_neg Bool.false_ne_true, List.nil_append, htake]
      dsimp only
      rw [n.int.startsWith, hdigits, hvalue]
      rfl

/-! ## Inside containers -/

theorem Plain.ne_opening {b : UInt8} (h : Plain b) (k : Kind) : b ≠ k.opening := by
  rintro rfl
  rw [Plain, bracketOf_opening] at h
  cases h.2

theorem Plain.ne_closing {b : UInt8} (h : Plain b) (k : Kind) : b ≠ k.closing := by
  rintro rfl
  rw [Plain, bracketOf_closing] at h
  cases h.2

namespace Kind

theorem opening_ne_quote (k : Kind) : k.opening ≠ quote := by
  cases k <;> decide

theorem closing_ne_quote (k : Kind) : k.closing ≠ quote := by
  cases k <;> decide

theorem closing_ne_opening (k j : Kind) : k.closing ≠ j.opening := by
  cases k <;> cases j <;> decide

theorem opening_inj {k j : Kind} (h : k.opening = j.opening) : k = j := by
  cases k <;> cases j <;> first | rfl | exact absurd h (by decide)

theorem closing_inj {k j : Kind} (h : k.closing = j.closing) : k = j := by
  cases k <;> cases j <;> first | rfl | exact absurd h (by decide)

end Kind

/-- A scanner inside a container that counts the brackets of one kind outside
strings, up to a limit. -/
structure CountsKind (k : Kind) (limit : Nat) {β : Type} (f : Nat → Bytes → β) : Prop where
  skip : ∀ {d b} t, b ≠ quote → b ≠ k.opening → b ≠ k.closing → f d (b :: t) = f d t
  str : ∀ {d} (s : Str) r, f d (quote :: (s.text ++ quote :: r)) = f d r
  opening : ∀ {d} t, d + 1 ≤ limit → f d (k.opening :: t) = f (d + 1) t
  closing : ∀ {d} t, 2 ≤ d → f d (k.closing :: t) = f (d - 1) t

theorem container_countsKind (k : Kind) :
    CountsKind k kMaxDepth (container k.opening k.closing .code) where
  skip t hq ho hc := by
    rw [container_code_cons _ _ _ hq, if_neg ho, if_neg hc]
  str s r := by
    rw [container_code_quote, container_string, string_enclosed s.enclosed, Option.bind_some]
  opening t hd := by
    rw [container_code_cons _ _ _ k.opening_ne_quote, if_pos rfl, if_neg (by omega)]
  closing t hd := by
    rw [container_code_cons _ _ _ k.closing_ne_quote, if_neg (k.closing_ne_opening k), if_pos rfl,
      if_neg (by omega)]

theorem Ws.plain (w : Ws) : ∀ b ∈ w.text, Plain b := fun b hb =>
  plain_of_class (q := isspace) (by decide +kernel) (isspace_of_isBlank (w.blank b hb))

theorem Literal.plain (l : Literal) : ∀ b ∈ l.text, Plain b := by
  cases l <;> decide +kernel

theorem Digits.chars (ds : Digits) : ∀ b ∈ ds.text, isNumberChar b := by
  intro b hb
  simp [isNumberChar, ds.digit b hb]

theorem Exponent.chars (e : Exponent) : ∀ b ∈ e.text, isNumberChar b := by
  have hletter : isNumberChar e.letter := by
    rcases e.isLetter with h | h <;> rw [h] <;> decide
  have hsign : ∀ b ∈ e.sign.toList, isNumberChar b := fun b hb => by
    rcases e.isSign b (Option.mem_toList.mp hb) with rfl | rfl <;> decide
  rw [Exponent.text, List.forall_mem_append, List.forall_mem_cons]
  exact ⟨⟨hletter, hsign⟩, e.digits.chars⟩

theorem Number.chars (n : Number) : ∀ b ∈ n.text, isNumberChar b := by
  have hsign : ∀ b ∈ (if n.negative then [minus] else []), isNumberChar b := by
    split <;> decide +kernel
  have hfrac : ∀ b ∈ n.fracText, isNumberChar b := by
    rw [Number.fracText]
    split
    · exact List.forall_mem_nil _
    · exact List.forall_mem_cons.mpr ⟨by decide, Digits.chars _⟩
  have hexp : ∀ b ∈ n.expText, isNumberChar b := by
    rw [Number.expText]
    split
    · exact List.forall_mem_nil _
    · exact Exponent.chars _
  simp only [Number.text, List.forall_mem_append]
  exact ⟨⟨⟨hsign, n.int.chars⟩, hfrac⟩, hexp⟩

theorem Number.plain (n : Number) : ∀ b ∈ n.text, Plain b := fun b hb =>
  plain_of_isNumberChar (n.chars b hb)

namespace CountsKind

variable {k : Kind} {limit : Nat} {β : Type} {f : Nat → Bytes → β}

theorem plain (hf : CountsKind k limit f) {w : Bytes} (h : ∀ b ∈ w, Plain b) (d : Nat)
    (r : Bytes) : f d (w ++ r) = f d r := by
  induction w with
  | nil => rfl
  | cons b w ih =>
      rw [List.forall_mem_cons] at h
      rw [List.cons_append, hf.skip _ h.1.1 (h.1.ne_opening k) (h.1.ne_closing k), ih h.2]

/-- A container inside the container, of either kind. -/
theorem inner (hf : CountsKind k limit f) (j : Kind) {d : Nat} {w r : Bytes} (hd : 1 ≤ d)
    (hmax : d + 1 ≤ limit)
    (hw : ∀ d', d ≤ d' → d' ≤ d + 1 → f d' (w ++ j.closing :: r) = f d' (j.closing :: r)) :
    f d (j.opening :: (w ++ j.closing :: r)) = f d r := by
  by_cases hjk : j = k
  · subst hjk
    rw [hf.opening _ hmax, hw (d + 1) (by omega) le_rfl, hf.closing _ (by omega),
      Nat.add_sub_cancel]
  · rw [hf.skip _ j.opening_ne_quote (fun h => hjk (j.opening_inj h))
      (fun h => k.closing_ne_opening j h.symm), hw d le_rfl (by omega),
      hf.skip _ j.closing_ne_quote (j.closing_ne_opening k) (fun h => hjk (j.closing_inj h))]

theorem label (hf : CountsKind k limit f) {j : Kind} (l : Label j) (d : Nat) (r : Bytes) :
    f d (l.text ++ r) = f d r := by
  cases l with
  | element => rfl
  | key s w w' =>
      have hcolon : Plain colon := by decide
      have htext : (Label.key s w w').text ++ r =
          quote :: (s.text ++ quote :: (w.text ++ colon :: (w'.text ++ r))) := by
        simp [Label.text]
      rw [htext, hf.str, hf.plain w.plain,
        hf.skip _ hcolon.1 (hcolon.ne_opening k) (hcolon.ne_closing k), hf.plain w'.plain]

/-- An entry, given its value. -/
theorem entry (hf : CountsKind k limit f) {d : Nat} {j : Kind} (w w' : Ws) (l : Label j)
    {v : Value} (hv : ∀ r, f d (v.text ++ r) = f d r) (r : Bytes) :
    f d (w.text ++ l.text ++ v.text ++ w'.text ++ r) = f d r := by
  simp only [List.append_assoc]
  rw [hf.plain w.plain, hf.label, hv, hf.plain w'.plain]

end CountsKind

section steps

variable {k : Kind} {limit : Nat} {β : Type} {f : Nat → Bytes → β}

mutual

/-- A container scanner steps over every value that stays within its limit. -/
theorem CountsKind.value (hf : CountsKind k limit f) : ∀ (v : Value) (d : Nat) (r : Bytes), 1 ≤ d →
    d + v.depth ≤ limit → f d (v.text ++ r) = f d r
  | .literal l, d, r, _, _ => hf.plain l.plain d r
  | .number n, d, r, _, _ => hf.plain n.plain d r
  | .string s, d, r, _, _ => by
      have := hf.str (d := d) s r
      simpa [Value.text] using this
  | .empty j w, d, r, hd, hmax => by
      rw [Value.depth] at hmax
      have := hf.inner j hd hmax (w := w.text) (r := r) fun d' _ _ => hf.plain w.plain d' _
      simpa [Value.text] using this
  | .container j es, d, r, hd, hmax => by
      rw [Value.depth] at hmax
      have := hf.inner j hd (by omega) (w := es.text) (r := r) fun d' hle hge =>
        hf.entries es d' _ (by omega) (by omega)
      simpa [Value.text] using this

theorem CountsKind.entries (hf : CountsKind k limit f) : ∀ {j : Kind} (es : Entries j) (d : Nat)
    (r : Bytes), 1 ≤ d → d + es.depth ≤ limit → f d (es.text ++ r) = f d r
  | _, .last w l v w', d, r, hd, hmax =>
      hf.entry w w' l (fun r => hf.value v d r hd hmax) r
  | _, .more w l v w' es, d, r, hd, hmax => by
      rw [Entries.depth] at hmax
      have hcomma : Plain comma := by decide
      rw [Entries.text, List.append_assoc _ (comma :: es.text) r,
        hf.entry w w' l fun r => hf.value v d r hd (by omega),
        List.cons_append, hf.skip _ hcomma.1 (hcomma.ne_opening k) (hcomma.ne_closing k)]
      exact hf.entries es d r hd (by omega)

end

end steps

/-! ## Values -/

theorem Value.solid (v : Value) (r : Bytes) : Solid (v.text ++ r) := by
  cases v with
  | literal l => cases l <;> rfl
  | number n => exact n.solid r
  | string s => rfl
  | empty k w => cases k <;> rfl
  | container k es => cases k <;> rfl

theorem value_opening (k : Kind) (t : Bytes) :
    value (k.opening :: t) = container k.opening k.closing .code 1 t := by
  cases k <;> rfl

theorem value_of_number {b : UInt8} (hb : (b = minus || isdigit b) = true) (t : Bytes) :
    value (b :: t) = number (b :: t) := by
  have hfalse : ∀ c ∈ [quote, lbrace, lbracket, 0x74, 0x66, 0x6E],
      (c = minus || isdigit c) = false := by decide +kernel
  have hne : ∀ c ∈ [quote, lbrace, lbracket, 0x74, 0x66, 0x6E], b ≠ c := by
    rintro c hc rfl
    rw [hfalse b hc] at hb
    cases hb
  rw [value, if_neg (hne _ (by decide)), if_neg (hne _ (by decide)), if_neg (hne _ (by decide)),
    if_neg (hne _ (by decide)), if_neg (hne _ (by decide)), if_neg (hne _ (by decide)), if_pos hb]

theorem Number.eq_cons (n : Number) :
    ∃ b t, n.text = b :: t ∧ (b = minus || isdigit b) = true := by
  obtain ⟨b, t, h, hb⟩ := n.int.eq_cons
  rw [Number.text]
  split
  · exact ⟨minus, _, rfl, rfl⟩
  · refine ⟨b, t ++ n.fracText ++ n.expText, by rw [h]; rfl, ?_⟩
    rw [hb, Bool.or_true]

theorem Value.text_ne_nil (v : Value) : v.text ≠ [] := by
  cases v with
  | literal l => cases l <;> decide
  | number n =>
      obtain ⟨b, t, h, -⟩ := n.eq_cons
      rw [Value.text, h]
      exact List.cons_ne_nil _ _
  | string s => exact List.cons_ne_nil _ _
  | empty k w => exact List.cons_ne_nil _ _
  | container k es => exact List.cons_ne_nil _ _

theorem value_number (n : Number) {r : Bytes} (hr : EndsNumber r) :
    value (n.text ++ r) = some r := by
  obtain ⟨b, t, h, hb⟩ := n.eq_cons
  rw [← n.number_text hr, h, List.cons_append, value_of_number hb]

/-- A value within the depth limit is taken off whatever follows it, a number
whatever does not continue it. -/
theorem value_text (v : Value) {r : Bytes} (hdepth : v.depth ≤ kMaxDepth) (hr : EndsNumber r) :
    value (v.text ++ r) = some r := by
  cases v with
  | literal l =>
      cases l <;> rfl
  | number n => exact value_number n hr
  | string s =>
      have := string_enclosed s.enclosed r
      simpa [Value.text, value] using this
  | empty k w =>
      have hw := (container_countsKind k).plain w.plain 1 (k.closing :: r)
      have htext : (Value.empty k w).text ++ r = k.opening :: (w.text ++ k.closing :: r) := by
        simp [Value.text]
      rw [htext, value_opening, hw, container_code_cons _ _ _ k.closing_ne_quote,
        if_neg (k.closing_ne_opening k), if_pos rfl, if_pos rfl]
  | container k es =>
      rw [Value.depth] at hdepth
      have hes := (container_countsKind k).entries es 1 (k.closing :: r) le_rfl (by omega)
      have htext : (Value.container k es).text ++ r = k.opening :: (es.text ++ k.closing :: r) := by
        simp [Value.text]
      rw [htext, value_opening, hes, container_code_cons _ _ _ k.closing_ne_quote,
        if_neg (k.closing_ne_opening k), if_pos rfl, if_pos rfl]

/-! ## Members -/

/-- White space ends a number, too. -/
theorem EndsNumber.ws {r : Bytes} (h : EndsNumber r) (w : Ws) : EndsNumber (w.text ++ r) := by
  have hhead : ∀ q : UInt8 → Bool, (∀ c ∈ [space, 9, newline, 13], q c = false) →
      startsWith q r = false → startsWith q (w.text ++ r) = false := by
    intro q hq hr
    cases hw : w.text with
    | nil => exact hr
    | cons c cs =>
        have hc := w.blank c (hw ▸ List.mem_cons_self)
        simp only [isBlank, Bool.or_eq_true, decide_eq_true_eq] at hc
        rcases hc with ((rfl | rfl) | rfl) | rfl <;> exact hq _ (by decide)
  exact ⟨hhead _ (by decide +kernel) h.digit, hhead _ (by decide +kernel) h.frac,
    hhead _ (by decide +kernel) h.exp⟩

/-- A separator or a closing bracket, after white space, ends a number. -/
theorem EndsNumber.of_separator (w : Ws) {b : UInt8} (hb : b = comma ∨ ∃ k : Kind, b = k.closing)
    (t : Bytes) : EndsNumber (w.text ++ b :: t) := by
  refine EndsNumber.ws ?_ w
  rcases hb with rfl | ⟨k, rfl⟩
  · exact ⟨rfl, rfl, rfl⟩
  · cases k <;> exact ⟨rfl, rfl, rfl⟩

section members

variable {μ : Type} {read : Bytes → Bytes → Option (μ × Bytes)}
variable {Matches : Bytes × Value → μ → Prop}

/-- A reader of members finds what stands in the grammar. -/
def Finds (read : Bytes → Bytes → Option (μ × Bytes)) (Matches : Bytes × Value → μ → Prop)
    (m : Bytes × Value) : Prop :=
  ∀ (w : Ws) {r : Bytes}, EndsNumber r →
    ∃ x, read m.1 (w.text ++ (m.2.text ++ r)) = some (x, r) ∧ Matches m x

theorem member_scan {s : Str} {v : Value} (h : Finds read Matches (s.text, v))
    (w w₁ w₂ w₃ : Ws) {b : UInt8} (hb : b = comma ∨ b = rbrace) (r : Bytes) :
    ∃ x, member read (w.text ++ (Label.key s w₁ w₂).text ++ v.text ++ w₃.text ++ b :: r) =
      some (x, if b = comma then r else b :: r) ∧ Matches (s.text, v) x := by
  obtain ⟨x, hx, hmatch⟩ := h w₂ (EndsNumber.of_separator w₃ (hb.imp_right fun h => ⟨.object, h⟩) r)
  have hkey := content_str w s
    (w₁.text ++ colon :: (w₂.text ++ (v.text ++ (w₃.text ++ b :: r))))
  have hname : Slice.text ⟨s.text ++ quote ::
      (w₁.text ++ colon :: (w₂.text ++ (v.text ++ (w₃.text ++ b :: r)))), quote ::
      (w₁.text ++ colon :: (w₂.text ++ (v.text ++ (w₃.text ++ b :: r))))⟩ = s.text :=
    Slice.text_append _ _
  have hsep : separator (w₃.text ++ b :: r) = some (if b = comma then r else b :: r) := by
    rcases hb with rfl | rfl
    · exact separator_comma w₃ r
    · exact separator_rbrace w₃ r
  have htext : w.text ++ (Label.key s w₁ w₂).text ++ v.text ++ w₃.text ++ b :: r =
      w.text ++ quote :: (s.text ++ quote ::
        (w₁.text ++ colon :: (w₂.text ++ (v.text ++ (w₃.text ++ b :: r))))) := by
    simp [Label.text]
  refine ⟨x, ?_, hmatch⟩
  rw [htext]
  exact member_eq_some.mpr ⟨_, _, _, _, hkey, symbol_ws w₁ rfl _, by rw [hname]; exact hx, hsep⟩

theorem symbol_rbrace_of_member {l r : Bytes} {x : μ} (h : member read l = some (x, r)) :
    symbol rbrace l = none := by
  obtain ⟨key, l₁, l₂, l₃, hkey, -⟩ := member_eq_some.mp h
  exact symbol_rbrace_of_content hkey

theorem Entries.members_scan : ∀ (es : Entries .object),
    (∀ m ∈ es.members, Finds read Matches m) → ∀ r, ∃ n ms,
      membersWithin read n (es.text ++ rbrace :: r) = some (ms, r) ∧
        List.Forall₂ Matches es.members ms
  | .last w (.key s w₁ w₂) v w₃, h, r => by
      obtain ⟨x, hx, hmatch⟩ :=
        member_scan (h _ (List.mem_singleton.mpr rfl)) w w₁ w₂ w₃ (.inr rfl) r
      rw [if_neg (by decide)] at hx
      refine ⟨2, [x], ?_, .cons hmatch .nil⟩
      rw [Entries.text, membersWithin, symbol_rbrace_of_member hx, hx]
      rfl
  | .more w (.key s w₁ w₂) v w₃ es, h, r => by
      rw [Entries.members, List.forall_mem_cons] at h
      obtain ⟨x, hx, hmatch⟩ := member_scan h.1 w w₁ w₂ w₃ (.inl rfl) (es.text ++ rbrace :: r)
      obtain ⟨n, ms, hms, hmatches⟩ := Entries.members_scan es h.2 r
      rw [if_pos rfl] at hx
      refine ⟨n + 1, x :: ms, ?_, .cons hmatch hmatches⟩
      rw [Entries.text, List.append_assoc, List.cons_append, membersWithin,
        symbol_rbrace_of_member hx, hx]
      simp [hms]

/-- The members of an object are found in order. -/
theorem object_scan (hshrinks : Shrinks read) {v : Value} (hv : v.isObject)
    (h : ∀ m ∈ v.members, Finds read Matches m) (w : Ws) (r : Bytes) :
    ∃ ms, object read (w.text ++ (v.text ++ r)) = some (ms, r) ∧
      List.Forall₂ Matches v.members ms := by
  have hopen : ∀ t, symbol lbrace (w.text ++ lbrace :: t) = some t := symbol_ws w rfl
  cases v with
  | empty k w' =>
      cases k with
      | array => cases hv
      | object =>
          have htext : (Value.empty .object w').text ++ r =
              lbrace :: (w'.text ++ rbrace :: r) := by
            simp [Value.text, Kind.opening, Kind.closing]
          refine ⟨[], ?_, .nil⟩
          rw [htext, object, hopen, Option.bind_some]
          exact members_close (symbol_ws w' rfl r)
  | container k es =>
      cases k with
      | array => cases hv
      | object =>
          have htext : (Value.container .object es).text ++ r =
              lbrace :: (es.text ++ rbrace :: r) := by
            simp [Value.text, Kind.opening, Kind.closing]
          obtain ⟨n, ms, hms, hmatches⟩ := es.members_scan h r
          refine ⟨ms, ?_, hmatches⟩
          rw [htext, object, hopen, Option.bind_some]
          exact members_of_within hshrinks hms
  | literal l => cases hv
  | number n => cases hv
  | string s => cases hv

end members

end McpToolkit
