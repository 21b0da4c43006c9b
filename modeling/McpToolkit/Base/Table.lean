import Mathlib.Data.List.AList
import Mathlib.Data.Set.Card
/-!
# Tables

`std::map` and `std::unordered_map` as association lists without duplicate keys.
What a table holds is described by its lookups alone.
-/

namespace McpToolkit

/-- A table from keys to values. -/
abbrev Table (κ α : Type) := AList fun _ : κ => α

namespace Table

variable {κ α : Type} [DecidableEq κ]

theorem lookup_insert_eq (t : Table κ α) (k k' : κ) (a : α) :
    (t.insert k a).lookup k' = if k' = k then some a else t.lookup k' := by
  split_ifs with h
  · rw [h, AList.lookup_insert]
  · exact AList.lookup_insert_ne h

theorem lookup_erase_eq (t : Table κ α) (k k' : κ) :
    (t.erase k).lookup k' = if k' = k then none else t.lookup k' := by
  split_ifs with h
  · rw [h, AList.lookup_erase]
  · exact AList.lookup_erase_ne h

/-- A table has as many entries as keys. -/
theorem ncard_keys (t : Table κ α) : Set.ncard {k | k ∈ t} = t.entries.length := by
  have hkeys : {k | k ∈ t} = (t.keys.toFinset : Set κ) := by
    ext k
    rw [Set.mem_ofPred_eq, List.coe_toFinset, Set.mem_ofPred_eq, AList.mem_keys]
  rw [hkeys, Set.ncard_coe_finset, List.toFinset_card_of_nodup t.keys_nodup]
  exact List.length_map ..

/-- The loop that goes through a table and erases the entries that satisfy a test. -/
def eraseIf (test : α → Bool) (t : Table κ α) : Table κ α :=
  t.entries.foldl (fun t e => if test e.2 then t.erase e.1 else t) t

theorem lookup_foldl_erase (test : α → Bool) (entries : List (Sigma fun _ : κ => α))
    (t : Table κ α) (k : κ) :
    (entries.foldl (fun (t : Table κ α) e => if test e.2 then t.erase e.1 else t) t).lookup k =
      if ∃ e ∈ entries, e.1 = k ∧ test e.2 then none else t.lookup k := by
  induction entries generalizing t with
  | nil => simp
  | cons e entries ih =>
      rw [List.foldl_cons, ih]
      by_cases hrest : ∃ e ∈ entries, e.1 = k ∧ test e.2
      · rw [if_pos hrest, if_pos]
        obtain ⟨e', he', hk⟩ := hrest
        exact ⟨e', List.mem_cons_of_mem e he', hk⟩
      · rw [if_neg hrest]
        by_cases htest : test e.2 = true
        · rw [if_pos htest, lookup_erase_eq]
          by_cases hk : k = e.1
          · rw [if_pos hk, if_pos ⟨e, List.mem_cons_self, hk.symm, htest⟩]
          · rw [if_neg hk, if_neg]
            rintro ⟨e', he', hk', htest'⟩
            rcases List.mem_cons.mp he' with rfl | he'
            · exact hk hk'.symm
            · exact hrest ⟨e', he', hk', htest'⟩
        · rw [if_neg htest, if_neg]
          rintro ⟨e', he', hk', htest'⟩
          rcases List.mem_cons.mp he' with rfl | he'
          · exact htest htest'
          · exact hrest ⟨e', he', hk', htest'⟩

/-- What is left are the entries that fail the test. -/
theorem lookup_eraseIf (test : α → Bool) (t : Table κ α) (k : κ) :
    (t.eraseIf test).lookup k = (t.lookup k).filter fun a => !test a := by
  rw [eraseIf, lookup_foldl_erase]
  cases hk : t.lookup k with
  | none => simp
  | some a =>
      have hmem : (⟨k, a⟩ : Sigma fun _ : κ => α) ∈ t.entries := AList.mem_lookup_iff.mp hk
      have hexists : (∃ e ∈ t.entries, e.1 = k ∧ test e.2) ↔ test a := by
        constructor
        · rintro ⟨⟨k', a'⟩, he, rfl, htest⟩
          have ha := AList.mem_lookup_iff.mpr he
          rw [hk] at ha
          cases ha
          exact htest
        · exact fun htest => ⟨_, hmem, rfl, htest⟩
      by_cases htest : test a = true
      · rw [if_pos (hexists.mpr htest), Option.filter_some, htest]
        rfl
      · rw [if_neg (mt hexists.mp htest), Option.filter_some, Bool.eq_false_iff.mpr htest]
        rfl

/-- One table is the other without some of the entries that satisfy `P`. -/
def Pruned (P : α → Prop) (t' t : Table κ α) : Prop :=
  ∀ k, t'.lookup k = t.lookup k ∨ t'.lookup k = none ∧ ∃ a, t.lookup k = some a ∧ P a

namespace Pruned

variable {P Q : α → Prop} {t t' : Table κ α}

theorem refl (P : α → Prop) (t : Table κ α) : Pruned P t t := fun _ => .inl rfl

theorem mono (h : Pruned P t' t) (hPQ : ∀ a, P a → Q a) : Pruned Q t' t :=
  fun k => (h k).imp_right fun ⟨hnone, a, ha, hP⟩ => ⟨hnone, a, ha, hPQ a hP⟩

theorem insert (h : Pruned P t' t) (k : κ) (a : α) : Pruned P (t'.insert k a) (t.insert k a) := by
  intro k'
  rw [lookup_insert_eq, lookup_insert_eq]
  by_cases hk : k' = k
  · rw [if_pos hk, if_pos hk]
    exact .inl rfl
  · rw [if_neg hk, if_neg hk]
    exact h k'

theorem erase (h : Pruned P t' t) (k : κ) : Pruned P (t'.erase k) (t.erase k) := by
  intro k'
  rw [lookup_erase_eq, lookup_erase_eq]
  by_cases hk : k' = k
  · rw [if_pos hk, if_pos hk]
    exact .inl rfl
  · rw [if_neg hk, if_neg hk]
    exact h k'

/-- An entry that has been pruned can be erased. -/
theorem erase_right (h : Pruned P t' t) {k : κ} (hk : t'.lookup k = none) :
    Pruned P t' (t.erase k) := by
  intro k'
  rw [lookup_erase_eq]
  by_cases heq : k' = k
  · rw [if_pos heq, heq]
    exact .inl hk
  · rw [if_neg heq]
    exact h k'

/-- Pruning once more. -/
theorem eraseIf (h : Pruned P t' t) {test : α → Bool} (htest : ∀ a, test a = true → P a) :
    Pruned P (t'.eraseIf test) t := by
  intro k
  rw [lookup_eraseIf]
  rcases h k with heq | ⟨hnone, hrest⟩
  · rw [heq]
    cases ha : t.lookup k with
    | none => exact .inl rfl
    | some a =>
        cases hpruned : test a with
        | true => exact .inr ⟨by simp [hpruned], a, rfl, htest a hpruned⟩
        | false => exact .inl (by simp [hpruned])
  · rw [hnone]
    exact .inr ⟨rfl, hrest⟩

end Pruned

end Table

end McpToolkit
