import McpToolkit.Json.Complete
import Mathlib.Data.Nat.Digits.Defs
/-!
# Integers at the limits

`parse_int` accepts a run of digits, however long, exactly if its value is that of an
`int`, and reads all of the run.  The check stands in the loop behind the next digit, so
that the value in the loop grows by one digit at most before it is checked.
-/

namespace McpToolkit

open JsonParser Scan

/-- White space, an optional sign, a run of digits and what follows. -/
structure IntegerText where
  white : Bytes
  isspace_white : ∀ b ∈ white, isspace b
  negative : Bool
  digits : Digits
  rest : Bytes
  /-- The run of digits is maximal. -/
  ends : startsWith isdigit rest = false

namespace IntegerText

variable (t : IntegerText)

def sign : Bytes := if t.negative then [minus] else []

def text : Bytes := t.white ++ (t.sign ++ (t.digits.text ++ t.rest))

/-- The octets up to the end of the run. -/
def length : Nat := t.white.length + (t.sign.length + t.digits.text.length)

/-- The decimal value of the digits. -/
def magnitude : Nat := Nat.ofDigits 10 (t.digits.text.map digitValue).reverse

def value : Int := if t.negative then -(t.magnitude : Int) else (t.magnitude : Int)

end IntegerText

namespace IntegerText

theorem length_text (t : IntegerText) : t.text.length = t.length + t.rest.length := by
  simp only [text, length, List.length_append]
  omega

end IntegerText

/-! ## The digits -/

/-- The loop computes the decimal value. -/
theorem natFrom_eq_ofDigits (ds : Bytes) :
    natFrom 0 ds = Nat.ofDigits 10 (ds.map digitValue).reverse := by
  induction ds using List.reverseRecOn with
  | nil => rfl
  | append_singleton ds b ih =>
      rw [natFrom_concat, ih, List.map_append, List.reverse_append, List.map_singleton,
        List.reverse_singleton, List.singleton_append, Nat.ofDigits_cons]
      omega

/-- A value that is too large is noticed, wherever in the run that is. -/
theorem digits_of_gt {ds r : Bytes} : ∀ {n : Nat}, n ≤ intMax → (∀ b ∈ ds, isdigit b) →
    intMax < natFrom n ds → Scan.digits n (ds ++ r) = none := by
  induction ds with
  | nil =>
      intro n hn _ hlarge
      exact absurd hlarge (Nat.not_lt.mpr hn)
  | cons b ds ih =>
      intro n hn hds hlarge
      rw [List.forall_mem_cons] at hds
      rw [natFrom_cons] at hlarge
      rw [List.cons_append, Scan.digits, if_pos hds.1]
      by_cases hmax : n * 10 + digitValue b > intMax
      · rw [if_pos hmax]
      · rw [if_neg hmax]
        exact ih (Nat.le_of_not_lt hmax) hds.2 hlarge

namespace IntegerText

variable (t : IntegerText)

theorem digits_scan : Scan.digits 0 (t.digits.text ++ t.rest) =
    if t.magnitude ≤ intMax then some (t.magnitude, t.rest) else none := by
  rw [magnitude, ← natFrom_eq_ofDigits]
  split_ifs with hmax
  · exact digits_natFrom t.ends t.digits.digit hmax
  · exact digits_of_gt (Nat.zero_le _) t.digits.digit (Nat.lt_of_not_le hmax)

theorem blanks_text : blanks t.text = t.sign ++ (t.digits.text ++ t.rest) := by
  have hsolid : Solid (t.sign ++ (t.digits.text ++ t.rest)) := by
    rw [Solid, sign]
    cases t.negative with
    | true => rfl
    | false => exact t.digits.startsWith_of (fun b hb => isspace_of_isdigit hb) _
  rw [text, blanks, List.dropWhile_append_of_pos t.isspace_white]
  exact hsolid.blanks

theorem takeIf_sign : takeIf (· = minus) (t.sign ++ (t.digits.text ++ t.rest)) =
    (t.negative, t.digits.text ++ t.rest) := by
  rw [sign]
  cases t.negative with
  | true => rfl
  | false =>
      rw [if_neg Bool.false_ne_true, List.nil_append, takeIf,
        t.digits.startsWith_of minus_of_isdigit]
      rfl

/-- An integer is read exactly if it is in range. -/
theorem int_text : Scan.int t.text =
    if t.magnitude ≤ intMax then some (t.value, t.rest) else none := by
  rw [Scan.int, blanks_text, takeIf_sign]
  dsimp only
  rw [t.digits.startsWith, if_pos rfl, digits_scan]
  by_cases hmax : t.magnitude ≤ intMax
  · rw [if_pos hmax, if_pos hmax, Option.map_some, value]
  · rw [if_neg hmax, if_neg hmax, Option.map_none]

end IntegerText

theorem startsWith_dropWhile (q : UInt8 → Bool) (l : Bytes) :
    startsWith q (l.dropWhile q) = false := by
  induction l with
  | nil => rfl
  | cons b l ih =>
      by_cases hb : q b = true
      · rw [List.dropWhile_cons_of_pos hb]
        exact ih
      · rw [List.dropWhile_cons_of_neg hb]
        exact Bool.eq_false_iff.mpr hb

theorem takeIf_minus {l s : Bytes} {negative : Bool}
    (h : takeIf (· = minus) l = (negative, s)) :
    (if negative then [minus] else []) ++ s = l := by
  rw [takeIf] at h
  cases l with
  | nil =>
      cases h
      rfl
  | cons b l =>
      by_cases hb : b = minus
      · subst hb
        cases h
        rfl
      · have hstart : startsWith (· = minus) (b :: l) = false := decide_eq_false hb
        rw [hstart] at h
        cases h
        rfl

/-- Where an integer is read there is one. -/
theorem exists_integerText {l : Bytes} (h : Scan.int l ≠ none) : ∃ t : IntegerText, t.text = l := by
  rw [Scan.int] at h
  cases hsign : takeIf (· = minus) (blanks l) with
  | mk negative s =>
      rw [hsign] at h
      dsimp only at h
      by_cases hdigit : startsWith isdigit s = true
      · have hne : s.takeWhile isdigit ≠ [] := by
          cases s with
          | nil => cases hdigit
          | cons b s =>
              have hb : isdigit b = true := hdigit
              rw [List.takeWhile_cons_of_pos hb]
              exact List.cons_ne_nil _ _
        refine ⟨⟨l.takeWhile isspace, fun b => List.mem_takeWhile_imp, negative,
          ⟨s.takeWhile isdigit, hne, fun b => List.mem_takeWhile_imp⟩, s.dropWhile isdigit,
          startsWith_dropWhile isdigit s⟩, ?_⟩
        rw [IntegerText.text, IntegerText.sign]
        dsimp only
        rw [List.takeWhile_append_dropWhile, takeIf_minus hsign]
        exact List.takeWhile_append_dropWhile
      · rw [if_neg hdigit] at h
        exact absurd rfl h

/-! ## The parser -/

namespace JsonParser

/-- A pass goes on with the value that it has checked. -/
theorem parseIntPass_next {s s' : JsonParser × Nat} (h : parseIntPass s = .ok (.next s')) :
    s'.2 ≤ intMax := by
  obtain ⟨p, val⟩ := s
  rw [parseIntPass] at h
  by_cases hpos : p.pos < p.len
  · rw [if_pos hpos] at h
    obtain ⟨c, -, h⟩ := bind_eq_ok h
    by_cases hc : isdigit c = true
    · rw [if_pos hc] at h
      obtain ⟨val', -, h⟩ := bind_eq_ok h
      by_cases hmax : val' > intMax
      · rw [if_pos hmax] at h
        cases h
      · rw [if_neg hmax] at h
        obtain ⟨p', -, h⟩ := bind_eq_ok h
        cases h
        exact Nat.le_of_not_lt hmax
    · rw [if_neg hc] at h
      cases h
  · rw [if_neg hpos] at h
    cases h

theorem val_le_of_passesThrough {p : JsonParser} {s : JsonParser × Nat}
    (h : PassesThrough parseIntPass (p, 0) s) : s.2 ≤ intMax :=
  h.invariant (I := fun s => s.2 ≤ intMax) (Nat.zero_le _) fun _ _ _ => parseIntPass_next

theorem before_drop {p : JsonParser} (h : p.pos ≤ p.len) :
    before p.input p.maxBytes (p.input.drop p.pos) = p := by
  obtain ⟨input, pos, maxBytes⟩ := p
  have hpos : input.length - (input.length - pos) = pos := Nat.sub_sub_self h
  rw [before, List.length_drop, hpos]

theorem parseInt_outside {p : JsonParser} (h : p.len ≤ p.pos) (num : Int) :
    p.parseInt num = .ok (false, num, p) := by
  have hpass : skipWhilePass isspace p = .ok (.done p) := by
    rw [skipWhilePass, if_neg (Nat.not_lt.mpr h)]
    rfl
  rw [parseInt, skipWs, skipWhile, passes, loop_succ_done hpass, ok_bind, if_pos h]
  rfl

/-- `parse_int` succeeds exactly where an integer in range is, and has read it then. -/
theorem parseInt_spec (p : JsonParser) (num : Int) : ∃ ok k p',
    p.parseInt num = .ok (ok, k, p') ∧
      (ok = true ↔ ∃ t : IntegerText, t.text = p.input.drop p.pos ∧ t.magnitude ≤ intMax) ∧
      (ok = true → ∀ t : IntegerText, t.text = p.input.drop p.pos →
        k = t.value ∧ t.magnitude ≤ intMax ∧ p'.input = p.input ∧ p'.pos = p.pos + t.length) := by
  by_cases hpos : p.pos ≤ p.len
  · have hyields := parseInt_before (m := p.maxBytes) (List.drop_suffix p.pos p.input) num
    rw [before_drop hpos] at hyields
    cases hint : Scan.int (p.input.drop p.pos) with
    | none =>
        rw [hint] at hyields
        obtain ⟨k, r, -, hrun⟩ := hyields
        refine ⟨false, k, _, hrun, iff_of_false Bool.false_ne_true ?_,
          fun h => absurd h Bool.false_ne_true⟩
        rintro ⟨t, ht, hmax⟩
        rw [← ht, t.int_text, if_pos hmax] at hint
        cases hint
    | some kr =>
        obtain ⟨k, r⟩ := kr
        rw [hint] at hyields
        obtain ⟨hr, hrun⟩ := hyields
        have hread : ∀ t : IntegerText, t.text = p.input.drop p.pos →
            t.magnitude ≤ intMax ∧ k = t.value ∧ r = t.rest := by
          intro t ht
          rw [← ht, t.int_text] at hint
          obtain ⟨hmax, heq⟩ := Option.ite_none_right_eq_some.mp hint
          cases heq
          exact ⟨hmax, rfl, rfl⟩
        obtain ⟨t, ht⟩ := exists_integerText (l := p.input.drop p.pos) (by simp [hint])
        refine ⟨true, k, _, hrun, iff_of_true rfl ⟨t, ht, (hread t ht).1⟩, fun _ t ht => ?_⟩
        obtain ⟨hmax, hk, hrest⟩ := hread t ht
        refine ⟨hk, hmax, rfl, ?_⟩
        have hlen := congrArg List.length ht
        rw [t.length_text, List.length_drop] at hlen
        rw [len] at hpos
        rw [before_pos, hrest]
        omega
  · have hend : p.input.drop p.pos = [] := List.drop_of_length_le (by rw [len] at hpos; omega)
    refine ⟨false, num, p, parseInt_outside (by omega) num,
      iff_of_false Bool.false_ne_true ?_, fun h => absurd h Bool.false_ne_true⟩
    rintro ⟨t, ht, hmax⟩
    have hint := t.int_text
    rw [ht, hend, if_pos hmax] at hint
    cases hint

/-- `parse_int` succeeds exactly where an integer in the range of `int` is, whatever the length
of its run of digits; it returns its value then and stops behind it.  Whenever a pass of the
loop begins, the next digit does not take the value further than one digit beyond the
range. -/
theorem parseInt_exact (p : JsonParser) (num : Int) :
    (∃ ok k p', p.parseInt num = .ok (ok, k, p') ∧
      (ok = true ↔ ∃ t : IntegerText, t.text = p.input.drop p.pos ∧ t.magnitude ≤ 2147483647) ∧
      (ok = true → -2147483648 ≤ k ∧ k ≤ 2147483647 ∧
        ∀ t : IntegerText, t.text = p.input.drop p.pos →
          k = t.value ∧ p'.input = p.input ∧ p'.pos = p.pos + t.length)) ∧
      ∀ q s c, PassesThrough parseIntPass (q, 0) s → s.1.peek = .ok c → isdigit c = true →
        s.2 * 10 + digitValue c ≤ 10 * 2147483647 + 9 ∧
          longLong (s.2 * 10 + digitValue c) = .ok (s.2 * 10 + digitValue c) := by
  refine ⟨?_, fun q s c hpasses _ hc => ?_⟩
  · obtain ⟨ok, k, p', hrun, hok, hread⟩ := parseInt_spec p num
    refine ⟨ok, k, p', hrun, hok, fun h => ?_⟩
    have hvalue := hread h
    obtain ⟨t, ht, -⟩ := hok.mp h
    obtain ⟨hk, hmax, -, -⟩ := hvalue t ht
    have hrange : -(intMax : Int) ≤ k ∧ k ≤ intMax := by
      rw [hk, IntegerText.value]
      split_ifs <;> omega
    rw [intMax] at hrange
    exact ⟨by omega, by omega, fun t ht => ⟨(hvalue t ht).1, (hvalue t ht).2.2⟩⟩
  · have hval := val_le_of_passesThrough hpasses
    have hdigit := digitValue_le hc
    rw [intMax] at hval
    exact ⟨by omega, longLong_digit hval c⟩

end JsonParser

end McpToolkit
