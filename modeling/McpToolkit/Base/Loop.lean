import Mathlib.Order.Basic
/-!
# Bounded loops over fallible bodies

A `while` loop of the sources becomes `loop body stuck n s`: at most `n`
passes through `body` from the state `s`.  A pass either asks for another one
or leaves with a result, and it may fail.  Running out of passes is the
failure `stuck`, so a loop that is shown to return also terminates.

Nothing here depends on a particular program.  The states a loop goes through
are described by an index `i : ι` (what a cursor has not read yet, say), and
`loop_spec` turns a statement about one pass into one about the loop.
-/

namespace McpToolkit

variable {σ α ε ι : Type}

/-- How one pass through a loop body ends. -/
inductive Pass (σ α : Type) where
  | next (s : σ)
  | done (a : α)

/-- At most `n` passes through `body`. -/
def loop (body : σ → Except ε (Pass σ α)) (stuck : ε) : Nat → σ → Except ε α
  | 0, _ => .error stuck
  | n + 1, s =>
      match body s with
      | .error e => .error e
      | .ok (.done a) => .ok a
      | .ok (.next s') => loop body stuck n s'

theorem loop_succ_next {body : σ → Except ε (Pass σ α)} {e : ε} {n : Nat}
    {s s' : σ} (h : body s = .ok (.next s')) :
    loop body e (n + 1) s = loop body e n s' := by
  rw [loop, h]

theorem loop_succ_done {body : σ → Except ε (Pass σ α)} {e : ε} {n : Nat}
    {s : σ} {a : α} (h : body s = .ok (.done a)) :
    loop body e (n + 1) s = .ok a := by
  rw [loop, h]

section rules

variable {body : σ → Except ε (Pass σ α)} {e : ε}
variable (st : ι → σ) (I : ι → Prop) (μ : ι → Nat)

/-- A pass from the state of index `i` goes on at a smaller index whose results
are also results of `i`, or leaves with a result of `i`. -/
def PassMeets (body : σ → Except ε (Pass σ α)) (R : ι → α → Prop) (i : ι) : Prop :=
  (∃ j, body (st i) = .ok (.next (st j)) ∧ I j ∧ μ j < μ i ∧ ∀ a, R j a → R i a) ∨
    ∃ a, body (st i) = .ok (.done a) ∧ R i a

theorem PassMeets.next {R : ι → α → Prop} {i j : ι}
    (h : body (st i) = .ok (.next (st j))) (hI : I j) (hμ : μ j < μ i)
    (hR : ∀ a, R j a → R i a) : PassMeets st I μ body R i :=
  .inl ⟨j, h, hI, hμ, hR⟩

theorem PassMeets.done {R : ι → α → Prop} {i : ι} {a : α}
    (h : body (st i) = .ok (.done a)) (hR : R i a) : PassMeets st I μ body R i :=
  .inr ⟨a, h, hR⟩

/-- A loop with more passes than the measure of its first state returns a result
of that state. -/
theorem loop_spec {R : ι → α → Prop} (hbody : ∀ i, I i → PassMeets st I μ body R i) :
    ∀ {n : Nat} {i : ι}, I i → μ i < n →
      ∃ a, loop body e n (st i) = .ok a ∧ R i a := by
  intro n
  induction n with
  | zero =>
      intro i _ hμ
      omega
  | succ n ih =>
      intro i hI hμ
      rcases hbody i hI with ⟨j, hj, hIj, hlt, hR⟩ | ⟨a, ha, hR⟩
      · obtain ⟨a, ha, hRa⟩ := ih hIj (by omega)
        exact ⟨a, by rw [loop_succ_next hj, ha], hR a hRa⟩
      · exact ⟨a, loop_succ_done ha, hR⟩

/-- A loop whose passes keep the value of `f` computes `f`. -/
theorem loop_eq {f : ι → α}
    (hbody : ∀ i, I i → PassMeets st I μ body (fun i a => a = f i) i)
    {n : Nat} {i : ι} (hI : I i) (hμ : μ i < n) :
    loop body e n (st i) = .ok (f i) := by
  obtain ⟨a, ha, rfl⟩ := loop_spec (e := e) st I μ hbody hI hμ
  exact ha

end rules

/-- The states in which a pass of a loop that starts in `s` begins. -/
inductive PassesThrough (body : σ → Except ε (Pass σ α)) (s : σ) : σ → Prop where
  | start : PassesThrough body s s
  | next {s₁ s₂ : σ} : PassesThrough body s s₁ → body s₁ = .ok (.next s₂) →
      PassesThrough body s s₂

/-- What every pass keeps holds whenever one begins. -/
theorem PassesThrough.invariant {body : σ → Except ε (Pass σ α)} {s s' : σ} {I : σ → Prop}
    (hstart : I s) (hnext : ∀ s₁ s₂, I s₁ → body s₁ = .ok (.next s₂) → I s₂)
    (h : PassesThrough body s s') : I s' := by
  induction h with
  | start => exact hstart
  | next _ hpass ih => exact hnext _ _ ih hpass

end McpToolkit
