import Mathlib.Algebra.BigOperators.Group.List.Basic
import Mathlib.Algebra.Order.Group.MinMax
import Mathlib.Tactic.Abel
/-!
# Reservoirs

A reservoir of limited size is filled and drawn from in turns; what does not fit is lost.
How much is in it is decided by the last time that it was full, or by the start, and it is
the least amount that any of these moments allows.
-/

namespace McpToolkit

namespace Reservoir

/-- What flows in, and what is then taken out. -/
structure Turn (α : Type) where
  inflow : α
  outflow : α

variable {α : Type} [AddCommGroup α] [LinearOrder α] [IsOrderedAddMonoid α]

/-- The level after a turn. -/
def turn (size level : α) (t : Turn α) : α := min (level + t.inflow) size - t.outflow

/-- The level after some turns. -/
def levelAfter (size : α) : α → List (Turn α) → α := List.foldl (turn size)

/-- What some turns bring if nothing is lost. -/
def net (turns : List (Turn α)) : α := (turns.map fun t => t.inflow - t.outflow).sum

omit [LinearOrder α] [IsOrderedAddMonoid α] in
theorem net_cons (t : Turn α) (turns : List (Turn α)) :
    net (t :: turns) = t.inflow - t.outflow + net turns := by
  rw [net, List.map_cons, List.sum_cons, net]

omit [IsOrderedAddMonoid α] in
theorem levelAfter_concat (size level : α) (turns : List (Turn α)) (t : Turn α) :
    levelAfter size level (turns ++ [t]) = turn size (levelAfter size level turns) t := by
  rw [levelAfter, List.foldl_append, List.foldl_cons, List.foldl_nil]

/-- There is as much as would be there if nothing had been lost since the start, and if
nothing had been lost since any moment at which the reservoir was full. -/
theorem le_levelAfter_iff {y : α} (size level : α) (turns : List (Turn α)) :
    y ≤ levelAfter size level turns ↔ y ≤ level + net turns ∧
      ∀ t later, t :: later <:+ turns → y ≤ size - t.outflow + net later := by
  induction turns generalizing level with
  | nil =>
      rw [net, List.map_nil, List.sum_nil, add_zero]
      refine ⟨fun h => ⟨h, fun t later hsuffix => ?_⟩, fun h => h.1⟩
      exact absurd (List.suffix_nil.mp hsuffix) (List.cons_ne_nil t later)
  | cons t turns ih =>
      have hmin : y ≤ turn size level t + net turns ↔
          y ≤ level + net (t :: turns) ∧ y ≤ size - t.outflow + net turns := by
        have hstart : level + net (t :: turns) = level + t.inflow - t.outflow + net turns := by
          rw [net_cons]
          abel
        rw [turn, ← min_sub_sub_right, ← min_add_add_right, le_min_iff, hstart]
      calc y ≤ levelAfter size level (t :: turns)
          ↔ y ≤ turn size level t + net turns ∧
              ∀ u later, u :: later <:+ turns → y ≤ size - u.outflow + net later :=
            ih (turn size level t)
        _ ↔ _ := by
            rw [hmin, and_assoc]
            refine and_congr_right fun _ => ⟨?_, fun h => ⟨?_, ?_⟩⟩
            · intro h u later hsuffix
              rcases List.suffix_cons_iff.mp hsuffix with heq | hsuffix
              · obtain ⟨rfl, rfl⟩ := List.cons.inj heq
                exact h.1
              · exact h.2 u later hsuffix
            · exact h t turns (List.suffix_refl _)
            · exact fun u later hsuffix => h u later (List.suffix_cons_iff.mpr (.inr hsuffix))

end Reservoir

end McpToolkit
