import McpToolkit.Base.Bytes
import McpToolkit.Base.Loop
import Mathlib.Algebra.Group.Nat.Defs
/-!
# Checked access to a buffer

C++ leaves a read outside a buffer undefined.  Here every read is checked and
the undefined cases become a `Fault`, so that "never reads outside" is the
statement that no fault occurs.
-/

namespace McpToolkit

/-- The undefined or unending behaviour that a run is shown not to have. -/
inductive Fault where
  /-- A read at an index outside the buffer. -/
  | read (index : Nat)
  /-- A cursor moved past the end of the buffer. -/
  | cursor (index : Nat)
  /-- A `long long` result outside its range. -/
  | overflow (value : Nat)
  /-- A loop that needs more passes than it was given. -/
  | passes
  deriving Repr, DecidableEq

/-- A pointer into a buffer, `none` for the null pointer, with a length. -/
structure Span where
  start : Option Nat := none
  len : Nat := 0
  deriving Repr, DecidableEq

/-- `buf[i]`. -/
def byteAt (buf : Bytes) (i : Nat) : Except Fault UInt8 :=
  match buf[i]? with
  | some b => .ok b
  | none => .error (.read i)

/-- The `n` octets from index `i`, as `memcmp` or a `std::string` constructor
reads them. -/
def bytesAt (buf : Bytes) (i n : Nat) : Except Fault Bytes :=
  if i + n ≤ buf.length then .ok ((buf.drop i).take n) else .error (.read (i + n))

/-- The text under a span, empty under a null one. -/
def Span.text (s : Span) (buf : Bytes) : Except Fault Bytes :=
  match s.start with
  | some i => bytesAt buf i s.len
  | none => if s.len = 0 then .ok [] else .error (.read 0)

/-- The span is that of octets of the buffer. -/
def Span.Within (s : Span) (buf : Bytes) : Prop := ∃ i, s.start = some i ∧ i + s.len ≤ buf.length

/-- A `long long` value, which may not leave the range of 64 bits. -/
def longLong (v : Nat) : Except Fault Nat :=
  if v < 2 ^ 63 then .ok v else .error (.overflow v)

@[simp] theorem ok_bind {ε α β : Type} (a : α) (f : α → Except ε β) :
    ((Except.ok a : Except ε α) >>= f) = f a := rfl

theorem bind_eq_ok {ε α β : Type} {x : Except ε α} {f : α → Except ε β} {b : β}
    (h : (x >>= f) = .ok b) : ∃ a, x = .ok a ∧ f a = .ok b := by
  cases x with
  | error e => cases h
  | ok a => exact ⟨a, rfl, h⟩

theorem pure_ok {ε α : Type} (a : α) : (pure a : Except ε α) = .ok a := rfl

theorem byteAt_of_drop {buf : Bytes} {i : Nat} {b : UInt8} {t : Bytes}
    (h : buf.drop i = b :: t) : byteAt buf i = .ok b := by
  have hi : buf[i]? = some b := by
    rw [← List.head?_drop, h, List.head?_cons]
  rw [byteAt, hi]

theorem bytesAt_of_drop {buf : Bytes} {i n : Nat} {s t : Bytes}
    (h : buf.drop i = s ++ t) (hn : s.length = n) (hi : i ≤ buf.length) :
    bytesAt buf i n = .ok s := by
  have hlen : buf.length - i = s.length + t.length := by
    rw [← List.length_drop, h, List.length_append]
  rw [bytesAt, if_pos (by omega), h, ← hn, List.take_left]

theorem length_bytesAt {buf t : Bytes} {i n : Nat} (h : bytesAt buf i n = .ok t) :
    t.length = n := by
  unfold bytesAt at h
  split_ifs at h with hn
  · cases h
    rw [List.length_take, List.length_drop]
    omega

theorem length_le_of_bytesAt {buf t : Bytes} {i n : Nat} (h : bytesAt buf i n = .ok t) :
    t.length ≤ buf.length := by
  have hlen := length_bytesAt h
  unfold bytesAt at h
  split_ifs at h with hn
  omega

theorem Span.length_text {s : Span} {buf t : Bytes} (h : s.text buf = .ok t) :
    t.length = s.len := by
  unfold Span.text at h
  cases hs : s.start with
  | some i =>
      rw [hs] at h
      exact length_bytesAt h
  | none =>
      rw [hs] at h
      dsimp only at h
      split_ifs at h with hn
      · cases h
        rw [hn, List.length_nil]

/-- No text under a span is longer than the buffer. -/
theorem Span.length_le {s : Span} {buf t : Bytes} (h : s.text buf = .ok t) :
    t.length ≤ buf.length := by
  unfold Span.text at h
  cases hs : s.start with
  | some i =>
      rw [hs] at h
      exact length_le_of_bytesAt h
  | none =>
      rw [hs] at h
      dsimp only at h
      split_ifs at h
      cases h
      exact Nat.zero_le _

end McpToolkit
