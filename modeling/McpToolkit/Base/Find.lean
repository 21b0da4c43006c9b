import Mathlib.Data.List.Infix
/-!
# Searching for a pattern

`find` of the standard library on sequences of any kind: the first position from a given
one on at which a pattern stands.  A loop that searches again from behind each find goes
through the occurrences one by one, and `occurrences` counts them.
-/

namespace McpToolkit

variable {α : Type} [DecidableEq α]

/-- The first position from `pos` on at which the pattern stands. -/
def find (s pat : List α) (pos : Nat) : Option Nat :=
  (List.range' pos (s.length + 1 - pos)).find? fun i => pat <+: s.drop i

/-- The number of positions at which the pattern stands. -/
def occurrences (pat s : List α) : Nat := s.tails.countP (pat <+: ·)

variable {s pat : List α} {pos i : Nat}

/-! ## What is found -/

theorem find_eq_some : find s pat pos = some i ↔
    pos ≤ i ∧ i ≤ s.length ∧ pat <+: s.drop i ∧ ∀ j, pos ≤ j → j < i → ¬ pat <+: s.drop j := by
  rw [find, List.find?_range'_eq_some, List.mem_range'_1]
  simp only [decide_eq_true_eq, Bool.not_eq_true', decide_eq_false_iff_not]
  constructor
  · rintro ⟨hlead, hrange, hbefore⟩
    exact ⟨hrange.1, by omega, hlead, hbefore⟩
  · rintro ⟨hpos, hlength, hlead, hbefore⟩
    exact ⟨hlead, ⟨hpos, by omega⟩, hbefore⟩

theorem find_eq_none : find s pat pos = none ↔
    ∀ i, pos ≤ i → i ≤ s.length → ¬ pat <+: s.drop i := by
  rw [find, List.find?_range'_eq_none]
  simp only [Bool.not_eq_true', decide_eq_false_iff_not]
  constructor
  · intro h i hpos hlength
    exact h i hpos (by omega)
  · intro h i hpos hrange
    exact h i hpos (by omega)

theorem find_zero : find s pat 0 = some 0 ↔ pat <+: s := by
  rw [find_eq_some, List.drop_zero]
  constructor
  · rintro ⟨-, -, h, -⟩
    exact h
  · intro h
    exact ⟨le_rfl, Nat.zero_le _, h, fun j _ hj => absurd hj (Nat.not_lt_zero j)⟩

omit [DecidableEq α] in
theorem infix_iff_drop : pat <:+: s ↔ ∃ i ≤ s.length, pat <+: s.drop i := by
  rw [List.infix_iff_prefix_suffix]
  constructor
  · rintro ⟨t, hlead, hsuffix⟩
    refine ⟨s.length - t.length, Nat.sub_le _ _, ?_⟩
    rwa [← List.suffix_iff_eq_drop.mp hsuffix]
  · rintro ⟨i, -, hlead⟩
    exact ⟨s.drop i, hlead, List.drop_suffix i s⟩

/-- A single element is found behind what does not have it. -/
theorem find_singleton {c : α} {skipped : List α} (h : c ∉ skipped) (done rest : List α) :
    find (done ++ (skipped ++ c :: rest)) [c] done.length =
      some (done.length + skipped.length) := by
  rw [find_eq_some]
  refine ⟨Nat.le_add_right _ _, ?_, ?_, fun j hj hlt hlead => ?_⟩
  · simp only [List.length_append]
    omega
  · rw [← List.append_assoc, ← List.length_append, List.drop_left]
    exact List.prefix_append [c] rest
  · obtain ⟨k, rfl⟩ := Nat.exists_eq_add_of_le hj
    have hk : k < skipped.length := by omega
    rw [List.drop_append, List.drop_of_length_le (by omega), List.nil_append,
      Nat.add_sub_cancel_left, List.drop_append_of_le_length hk.le, List.drop_eq_getElem_cons hk,
      List.cons_append, List.cons_prefix_cons] at hlead
    exact h (hlead.1 ▸ List.getElem_mem hk)

theorem find_singleton_none {c : α} {rest : List α} (h : c ∉ rest) (done : List α) :
    find (done ++ rest) [c] done.length = none := by
  rw [find_eq_none]
  intro i hi _ hlead
  obtain ⟨k, rfl⟩ := Nat.exists_eq_add_of_le hi
  rw [List.drop_append, List.drop_of_length_le (by omega), List.nil_append,
    Nat.add_sub_cancel_left] at hlead
  exact h (List.mem_of_mem_drop (hlead.subset List.mem_cons_self))

/-! ## How often -/

theorem occurrences_nil (h : pat ≠ []) : occurrences pat ([] : List α) = 0 := by
  simp [occurrences, h]

theorem occurrences_cons (pat : List α) (b : α) (t : List α) :
    occurrences pat (b :: t) = occurrences pat t + if pat <+: b :: t then 1 else 0 := by
  simp [occurrences, List.countP_cons]

theorem occurrences_cons_of_not {b : α} {t : List α} (h : ¬ pat <+: b :: t) :
    occurrences pat (b :: t) = occurrences pat t := by
  rw [occurrences_cons, if_neg h, Nat.add_zero]

theorem occurrences_eq_zero : occurrences pat s = 0 ↔ ¬ pat <:+: s := by
  rw [occurrences, List.countP_eq_zero, List.infix_iff_prefix_suffix, not_exists]
  simp only [List.mem_tails, decide_eq_true_eq, not_and']

theorem occurrences_drop_succ (hi : i < s.length) : occurrences pat (s.drop i) =
    occurrences pat (s.drop (i + 1)) + if pat <+: s.drop i then 1 else 0 := by
  rw [List.drop_eq_getElem_cons hi, occurrences_cons]

/-- Nothing is left when nothing is found. -/
theorem occurrences_of_find_none (hpat : pat ≠ []) (h : find s pat pos = none) :
    occurrences pat (s.drop pos) = 0 := by
  by_cases hpos : pos ≤ s.length
  · rw [occurrences_eq_zero, infix_iff_drop]
    rintro ⟨i, hi, hlead⟩
    rw [List.length_drop] at hi
    rw [List.drop_drop] at hlead
    exact find_eq_none.mp h (pos + i) (by omega) (by omega) hlead
  · rw [List.drop_of_length_le (by omega), occurrences_nil hpat]

theorem occurrences_drop_eq (hpos : pos ≤ i) (hi : i ≤ s.length)
    (h : ∀ j, pos ≤ j → j < i → ¬ pat <+: s.drop j) :
    occurrences pat (s.drop pos) = occurrences pat (s.drop i) := by
  induction i, hpos using Nat.le_induction with
  | base => rfl
  | succ i hpos ih =>
      rw [ih (by omega) fun j hj hlt => h j hj (by omega), occurrences_drop_succ (by omega),
        if_neg (h i hpos (by omega)), Nat.add_zero]

/-- A find is one occurrence, and the others come behind it. -/
theorem occurrences_of_find_some (hpat : pat ≠ []) (h : find s pat pos = some i) :
    occurrences pat (s.drop pos) = occurrences pat (s.drop (i + 1)) + 1 := by
  obtain ⟨hpos, hi, hlead, hbefore⟩ := find_eq_some.mp h
  have hlt : i < s.length := by
    have hlength := hlead.length_le
    rw [List.length_drop] at hlength
    have hpatLength := List.length_pos_iff.mpr hpat
    omega
  rw [occurrences_drop_eq hpos hi hbefore, occurrences_drop_succ hlt, if_pos hlead]

end McpToolkit
