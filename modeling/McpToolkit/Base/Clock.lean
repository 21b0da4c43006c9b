/-!
# Counting time

Time points and durations of the steady clock are signed 64-bit counts of nanoseconds,
and a duration in seconds becomes one before it is compared with another.
-/

namespace McpToolkit

/-- What 64 signed bits hold of an integer. -/
def int64 (x : Int) : Int := x.bmod Int64.size

/-- 64 signed bits can hold it. -/
def FitsInt64 (x : Int) : Prop := -9223372036854775808 ≤ x ∧ x ≤ 9223372036854775807

instance (x : Int) : Decidable (FitsInt64 x) := inferInstanceAs (Decidable (_ ∧ _))

/-- Seconds in nanoseconds. -/
def nanoseconds (seconds : Int) : Int := int64 (seconds * 1000000000)

theorem int64_eq {x : Int} (h : FitsInt64 x) : int64 x = x := by
  obtain ⟨hlow, hhigh⟩ := h
  refine Int.bmod_eq_of_le ?_ ?_ <;> rw [Int64.size] <;> omega

theorem nanoseconds_eq {seconds : Int} (h : FitsInt64 (seconds * 1000000000)) :
    nanoseconds seconds = seconds * 1000000000 := int64_eq h

/-- The longest duration in seconds is a negative one in nanoseconds. -/
example : nanoseconds 9223372036854775807 = -1000000000 := by decide

end McpToolkit
