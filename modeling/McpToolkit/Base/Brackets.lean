import Mathlib.Algebra.BigOperators.Group.List.Basic
import Mathlib.Algebra.Order.Group.Int
import Mathlib.Data.List.Count
import Mathlib.Tactic.Linarith
/-!
# Brackets of several kinds

Words of opening and closing brackets over any type of kinds.  A word is nested
when a stack of open brackets accepts it; it is balanced in one kind when the
number of open brackets of that kind never drops below zero and ends there.
Counting one kind sees balance; `nested_iff` says what a stack sees besides.
-/

namespace McpToolkit

inductive Bracket (κ : Type) where
  | opening (k : κ)
  | closing (k : κ)
  deriving DecidableEq

namespace Bracket

variable {κ : Type} [DecidableEq κ]

/-! ## Counting one kind -/

def weight (k : κ) : Bracket κ → Int
  | .opening j => if j = k then 1 else 0
  | .closing j => if j = k then -1 else 0

/-- The number of brackets of kind `k` that a word opens and does not close. -/
def height (k : κ) (w : List (Bracket κ)) : Int := (w.map (weight k)).sum

variable {k : κ}

@[simp] theorem height_nil : height k [] = 0 := rfl

@[simp] theorem height_cons (x : Bracket κ) (w : List (Bracket κ)) :
    height k (x :: w) = weight k x + height k w := by
  simp [height]

@[simp] theorem height_append (u v : List (Bracket κ)) :
    height k (u ++ v) = height k u + height k v := by
  simp [height]

@[simp] theorem weight_opening : weight k (.opening k) = 1 := if_pos rfl

@[simp] theorem weight_closing : weight k (.closing k) = -1 := if_pos rfl

theorem weight_cases (x : Bracket κ) :
    x = .opening k ∨ x = .closing k ∨ weight k x = 0 := by
  cases x with
  | opening j =>
      by_cases h : j = k
      · exact .inl (by rw [h])
      · exact .inr (.inr (if_neg h))
  | closing j =>
      by_cases h : j = k
      · exact .inr (.inl (by rw [h]))
      · exact .inr (.inr (if_neg h))

structure Balanced (k : κ) (w : List (Bracket κ)) : Prop where
  total : height k w = 0
  nonneg : ∀ p, p <+: w → 0 ≤ height k p

omit [DecidableEq κ] in
theorem forall_prefix_append {P : List (Bracket κ) → Prop} {b c : List (Bracket κ)}
    (hb : ∀ p, p <+: b → P p) (hc : ∀ p, p <+: c → P (b ++ p)) : ∀ p, p <+: b ++ c → P p := by
  intro p hp
  rcases List.prefix_or_prefix_of_prefix hp (List.prefix_append b c) with hpb | ⟨q, rfl⟩
  · exact hb p hpb
  · exact hc q ((List.prefix_append_right_inj b).mp hp)

omit [DecidableEq κ] in
theorem forall_prefix_cons {P : List (Bracket κ) → Prop} {x : Bracket κ}
    {w : List (Bracket κ)} (h : P []) (hcons : ∀ p, p <+: w → P (x :: p)) :
    ∀ p, p <+: x :: w → P p := by
  intro p hp
  rcases List.prefix_cons_iff.mp hp with rfl | ⟨q, rfl, hq⟩
  · exact h
  · exact hcons q hq

/-- A word that falls below its start has a first bracket that does so. -/
theorem first_descent {w : List (Bracket κ)} : ∀ {n : Int}, 0 ≤ n → n + height k w < 0 →
    ∃ b c, w = b ++ .closing k :: c ∧ n + height k b = 0 ∧
      ∀ p, p <+: b → 0 ≤ n + height k p := by
  induction w with
  | nil =>
      intro n hn h
      rw [height_nil] at h
      omega
  | cons x w ih =>
      intro n hn h
      rw [height_cons] at h
      by_cases hx : n + weight k x < 0
      · rcases weight_cases (k := k) x with rfl | rfl | hzero
        · rw [weight_opening] at hx
          omega
        · rw [weight_closing] at hx
          refine ⟨[], w, rfl, by rw [height_nil]; omega, fun p hp => ?_⟩
          rw [List.prefix_nil.mp hp, height_nil]
          omega
        · omega
      · obtain ⟨b, c, rfl, hb, hp⟩ := ih (n := n + weight k x) (by omega) (by omega)
        refine ⟨x :: b, c, rfl, by rw [height_cons]; omega, ?_⟩
        refine forall_prefix_cons (by rw [height_nil]; omega) fun p hpre => ?_
        have := hp p hpre
        rw [height_cons]
        omega

theorem weight_le_one (x : Bracket κ) : weight k x ≤ 1 := by
  rcases weight_cases (k := k) x with rfl | rfl | hzero
  · rw [weight_opening]
  · rw [weight_closing]
    omega
  · omega

theorem eq_opening_of_weight {x : Bracket κ} (h : weight k x = 1) : x = .opening k := by
  rcases weight_cases (k := k) x with rfl | rfl | hzero
  · rfl
  · rw [weight_closing] at h
    omega
  · omega

/-- A word that ends above its start has a last bracket that lifts it there. -/
theorem last_ascent {w : List (Bracket κ)} (h : 0 < height k w) :
    ∃ b c, w = b ++ .opening k :: c ∧ Balanced k c := by
  induction hn : w.length using Nat.strong_induction_on generalizing w with
  | _ n ih =>
      cases w with
      | nil =>
          rw [height_nil] at h
          omega
      | cons x t =>
          rw [List.length_cons] at hn
          rw [height_cons] at h
          by_cases hlift : ∃ p q, t = p ++ q ∧ 0 < height k q
          · obtain ⟨p, q, rfl, hq⟩ := hlift
            rw [List.length_append] at hn
            obtain ⟨b, c, rfl, hc⟩ := ih q.length (by omega) hq rfl
            exact ⟨x :: (p ++ b), c, by simp, hc⟩
          · have hsuffix : ∀ p q, t = p ++ q → height k q ≤ 0 :=
              fun p q hpq => Int.not_lt.mp fun hq => hlift ⟨p, q, hpq, hq⟩
            have ht := hsuffix [] t rfl
            have hx := weight_le_one (k := k) x
            rw [eq_opening_of_weight (k := k) (x := x) (by omega)]
            refine ⟨[], t, rfl, by omega, ?_⟩
            rintro p ⟨q, rfl⟩
            have hq := hsuffix p q rfl
            rw [height_append] at h ht
            omega

theorem Balanced.split {b c : List (Bracket κ)} (h : Balanced k (b ++ c)) (hb : Balanced k b) :
    Balanced k c := by
  have htotal := h.total
  rw [height_append, hb.total] at htotal
  refine ⟨by omega, fun p hp => ?_⟩
  have := h.nonneg (b ++ p) ((List.prefix_append_right_inj b).mpr hp)
  rw [height_append, hb.total] at this
  omega

theorem Balanced.append {b c : List (Bracket κ)} (hb : Balanced k b) (hc : Balanced k c) :
    Balanced k (b ++ c) := by
  refine ⟨by rw [height_append, hb.total, hc.total]; rfl, ?_⟩
  refine forall_prefix_append hb.nonneg fun p hp => ?_
  rw [height_append, hb.total]
  have := hc.nonneg p hp
  omega

theorem Balanced.wrap {b : List (Bracket κ)} (hb : Balanced k b) (j : κ) :
    Balanced k (.opening j :: b ++ [.closing j]) := by
  have hopening : 0 ≤ weight k (.opening j) := by
    show (0 : Int) ≤ if j = k then 1 else 0
    split <;> omega
  have hclosing : weight k (.opening j) + weight k (.closing j) = 0 := by
    show (if j = k then (1 : Int) else 0) + (if j = k then -1 else 0) = 0
    split <;> omega
  refine ⟨by simp [hb.total, hclosing], ?_⟩
  rw [List.cons_append]
  refine forall_prefix_cons le_rfl (forall_prefix_append (fun p hp => ?_) fun p hp => ?_)
  · have := hb.nonneg p hp
    rw [height_cons]
    omega
  · rw [height_cons, height_append, hb.total]
    rcases List.prefix_cons_iff.mp hp with rfl | ⟨q, rfl, hq⟩
    · rw [height_nil]
      omega
    · rw [List.prefix_nil.mp hq, height_cons, height_nil]
      omega

/-- The first bracket of a balanced word is closed. -/
theorem Balanced.first_return {v : List (Bracket κ)} (h : Balanced k (.opening k :: v)) :
    ∃ b c, v = b ++ .closing k :: c ∧ Balanced k b ∧ Balanced k c := by
  have htotal := h.total
  rw [height_cons, weight_opening] at htotal
  obtain ⟨b, c, rfl, hb, hp⟩ := first_descent (n := 0) (k := k) (w := v) le_rfl (by omega)
  rw [Int.zero_add] at hb
  have hbalanced : Balanced k b := ⟨hb, fun p hpre => by have := hp p hpre; omega⟩
  refine ⟨b, c, rfl, hbalanced, ?_⟩
  have hsplit : Bracket.opening k :: (b ++ .closing k :: c) =
      (.opening k :: b ++ [.closing k]) ++ c := by simp
  rw [hsplit] at h
  exact h.split (hbalanced.wrap k)

/-! ## A stack of open brackets -/

/-- A closing bracket has to match the bracket that was opened last. -/
def step : List κ → Bracket κ → Option (List κ)
  | s, .opening k => some (k :: s)
  | [], .closing _ => none
  | j :: s, .closing k => if j = k then some s else none

def run (s : List κ) (w : List (Bracket κ)) : Option (List κ) := w.foldlM step s

/-- Every bracket is closed by one of its kind, the last one opened first. -/
def Nested (w : List (Bracket κ)) : Prop := run [] w = some []

instance (w : List (Bracket κ)) : Decidable (Nested w) :=
  inferInstanceAs (Decidable (run [] w = some []))

@[simp] theorem run_nil (s : List κ) : run s [] = some s := rfl

@[simp] theorem run_cons (s : List κ) (x : Bracket κ) (w : List (Bracket κ)) :
    run s (x :: w) = (step s x).bind fun t => run t w := rfl

theorem run_append (s : List κ) (u v : List (Bracket κ)) :
    run s (u ++ v) = (run s u).bind fun t => run t v :=
  List.foldlM_append

theorem step_frame {s t : List κ} {x : Bracket κ} (h : step s x = some t) (u : List κ) :
    step (s ++ u) x = some (t ++ u) := by
  cases x with
  | opening j =>
      cases h
      rfl
  | closing j =>
      cases s with
      | nil => cases h
      | cons i s =>
          rw [step] at h
          split_ifs at h with hij
          cases h
          exact if_pos hij

/-- What lies below the open brackets does not matter. -/
theorem run_frame {w : List (Bracket κ)} : ∀ {s t : List κ}, run s w = some t →
    ∀ u, run (s ++ u) w = some (t ++ u) := by
  induction w with
  | nil =>
      intro s t h u
      cases h
      rfl
  | cons x w ih =>
      intro s t h u
      rw [run_cons, Option.bind_eq_some_iff] at h
      obtain ⟨s', hs', ht⟩ := h
      rw [run_cons, step_frame hs' u, Option.bind_some, ih ht u]

theorem Nested.append {u v : List (Bracket κ)} (hu : Nested u) (hv : Nested v) :
    Nested (u ++ v) := by
  rw [Nested, run_append, hu, Option.bind_some, hv]

theorem Nested.wrap {u : List (Bracket κ)} (hu : Nested u) (j : κ) :
    Nested (.opening j :: u ++ [.closing j]) := by
  have hframe : run [j] u = some [j] := run_frame hu [j]
  simp [Nested, run_append, step, hframe]

theorem step_count {s t : List κ} {x : Bracket κ} (h : step s x = some t) :
    (t.count k : Int) = s.count k + weight k x := by
  cases x with
  | opening j =>
      cases h
      rw [List.count_cons, weight]
      simp only [beq_iff_eq]
      split <;> simp
  | closing j =>
      cases s with
      | nil => cases h
      | cons i s =>
          rw [step] at h
          split_ifs at h with hij
          cases h
          subst hij
          rw [List.count_cons, weight]
          simp only [beq_iff_eq]
          split <;> simp

/-- A run keeps count of every kind. -/
theorem run_count {w : List (Bracket κ)} : ∀ {s t : List κ}, run s w = some t →
    (t.count k : Int) = s.count k + height k w := by
  induction w with
  | nil =>
      intro s t h
      cases h
      simp
  | cons x w ih =>
      intro s t h
      rw [run_cons, Option.bind_eq_some_iff] at h
      obtain ⟨s', hs', ht⟩ := h
      rw [ih ht, step_count hs', height_cons]
      omega

theorem Nested.balanced {w : List (Bracket κ)} (h : Nested w) (k : κ) : Balanced k w := by
  have htotal := run_count (k := k) h
  refine ⟨by simpa using htotal.symm, ?_⟩
  rintro p ⟨q, rfl⟩
  rw [Nested, run_append, Option.bind_eq_some_iff] at h
  obtain ⟨s, hs, -⟩ := h
  have := run_count (k := k) hs
  rw [List.count_nil] at this
  omega

/-- A run over a word that never falls below its start in the kind `k` does not
touch what lies below a bracket of that kind. -/
theorem run_above {b : List (Bracket κ)} : ∀ {u t s : List κ},
    run (u ++ k :: s) b = some t → (∀ p, p <+: b → 0 ≤ (u.count k : Int) + height k p) →
      ∃ v, run u b = some v ∧ t = v ++ k :: s := by
  induction b with
  | nil =>
      intro u t s h _
      cases h
      exact ⟨u, rfl, rfl⟩
  | cons x b ih =>
      intro u t s h hp
      rw [run_cons, Option.bind_eq_some_iff] at h
      obtain ⟨s', hs', ht⟩ := h
      have hstep : ∃ u', step u x = some u' ∧ s' = u' ++ k :: s := by
        cases x with
        | opening j =>
            cases hs'
            exact ⟨j :: u, rfl, rfl⟩
        | closing j =>
            cases u with
            | nil =>
                rw [List.nil_append, step] at hs'
                split_ifs at hs' with hkj
                subst hkj
                have := hp [.closing k] (List.prefix_append [_] b)
                simp at this
            | cons i u =>
                rw [List.cons_append, step] at hs'
                split_ifs at hs' with hij
                cases hs'
                exact ⟨u, if_pos hij, rfl⟩
      obtain ⟨u', hu', rfl⟩ := hstep
      obtain ⟨v, hv, rfl⟩ := ih ht fun p hpre => by
        have := hp (x :: p) (List.cons_prefix_cons.mpr ⟨rfl, hpre⟩)
        rw [height_cons] at this
        rw [step_count hu']
        omega
      exact ⟨v, by rw [run_cons, hu', Option.bind_some, hv], rfl⟩

/-- Between a bracket and the one that counting its kind pairs it with, a nested
word is nested. -/
theorem Nested.between {a b c : List (Bracket κ)}
    (h : Nested (a ++ .opening k :: b ++ .closing k :: c)) (hb : Balanced k b) : Nested b := by
  rw [Nested, List.append_assoc, run_append, Option.bind_eq_some_iff] at h
  obtain ⟨s, -, h⟩ := h
  rw [List.cons_append, run_cons, step, Option.bind_some, run_append,
    Option.bind_eq_some_iff] at h
  obtain ⟨t, ht, h⟩ := h
  obtain ⟨v, hv, rfl⟩ := run_above (u := []) ht fun p hp => by
    have := hb.nonneg p hp
    rw [List.count_nil]
    omega
  have hcount := run_count (k := k) hv
  rw [List.count_nil, hb.total] at hcount
  cases v with
  | nil => exact hv
  | cons i v =>
      rw [List.cons_append, run_cons, step] at h
      split_ifs at h with hik
      · subst hik
        rw [List.count_cons_self] at hcount
        omega
      · cases h

/-! ## One counter against the stack -/

/-- Between every bracket of kind `k` and the one that counting this kind pairs
it with, the brackets of kind `j` balance too. -/
def PairsBalance (k j : κ) (w : List (Bracket κ)) : Prop :=
  ∀ a b c, w = a ++ .opening k :: b ++ .closing k :: c → Balanced k b → Balanced j b

theorem PairsBalance.of_infix {j : κ} {w a v c : List (Bracket κ)} (h : PairsBalance k j w)
    (hw : w = a ++ v ++ c) : PairsBalance k j v := by
  rintro a' b c' rfl hb
  exact h (a ++ a') b (c' ++ c) (by simp [hw]) hb

theorem weight_opening_of_ne {j : κ} (h : j ≠ k) : weight k (.opening j) = 0 := if_neg h

theorem weight_closing_of_ne {j : κ} (h : j ≠ k) : weight k (.closing j) = 0 := if_neg h

theorem Balanced.singleton {x : Bracket κ} (h : weight k x = 0) : Balanced k [x] := by
  refine ⟨by rw [height_cons, h, height_nil]; rfl, forall_prefix_cons le_rfl fun p hp => ?_⟩
  rw [List.prefix_nil.mp hp, height_cons, h, height_nil]
  omega

/-- A pair of kind `k` cannot straddle the end of a pair of kind `j`. -/
theorem PairsBalance.not_crossing {j : κ} (hjk : j ≠ k) {a b₂ c d : List (Bracket κ)}
    (hpairs : PairsBalance k j (a ++ .opening k :: (b₂ ++ .closing j :: c) ++ .closing k :: d))
    (hb₂ : Balanced k b₂) (hc : Balanced k c) : 0 < height j b₂ := by
  have hinner : Balanced k (b₂ ++ .closing j :: c) :=
    hb₂.append ((Balanced.singleton (weight_closing_of_ne hjk)).append hc)
  have hbegins : b₂ ++ [.closing j] <+: b₂ ++ .closing j :: c := ⟨c, by simp⟩
  have := (hpairs a _ d rfl hinner).nonneg _ hbegins
  rw [height_append, height_cons, weight_closing, height_nil] at this
  omega

/-- Inside a pair of kind `j` the other kind balances. -/
theorem PairsBalance.balanced_inside {j : κ} (hjk : j ≠ k) {b c : List (Bracket κ)}
    (hpairs : PairsBalance k j (.opening j :: (b ++ .closing j :: c)))
    (hk : Balanced k (.opening j :: (b ++ .closing j :: c))) (hj : Balanced j b) :
    Balanced k b := by
  have hnonneg : ∀ p, p <+: b → 0 ≤ height k p := fun p hp => by
    have hpre : .opening j :: p <+: .opening j :: (b ++ .closing j :: c) :=
      List.cons_prefix_cons.mpr ⟨rfl, hp.trans (List.prefix_append b _)⟩
    have := hk.nonneg _ hpre
    rw [height_cons, weight_opening_of_ne hjk] at this
    omega
  refine ⟨?_, hnonneg⟩
  by_contra htotal
  have hpos : 0 < height k b := by
    have := hnonneg b List.prefix_rfl
    omega
  have hc : (0 : Int) + height k c < 0 := by
    have := hk.total
    rw [height_cons, height_append, height_cons, weight_opening_of_ne hjk,
      weight_closing_of_ne hjk] at this
    omega
  obtain ⟨b₁, b₂, rfl, hb₂⟩ := last_ascent hpos
  obtain ⟨c₁, c₂, rfl, hc₁, hp⟩ := first_descent le_rfl hc
  have hcross : 0 < height j b₂ := by
    refine PairsBalance.not_crossing (k := k) (a := .opening j :: b₁) (c := c₁) (d := c₂) hjk
      ?_ hb₂ ⟨by omega, fun p hpre => by have := hp p hpre; omega⟩
    simpa using hpairs
  have hb₁ := hj.nonneg b₁ (List.prefix_append _ _)
  have hb := hj.total
  rw [height_append, height_cons, weight_opening_of_ne hjk.symm] at hb
  omega

theorem nested_of_pairs {j : κ} (hjk : j ≠ k) (hkinds : ∀ i, i = k ∨ i = j)
    {w : List (Bracket κ)} (hk : Balanced k w) (hj : Balanced j w) (hpairs : PairsBalance k j w) :
    Nested w := by
  induction hn : w.length using Nat.strong_induction_on generalizing w with
  | _ n ih =>
      cases w with
      | nil => rfl
      | cons x v =>
          have hjoin : ∀ {i b c}, v = b ++ .closing i :: c → x = .opening i →
              Balanced k b → Balanced j b → Nested (x :: v) := by
            rintro i b c rfl rfl hkb hjb
            have hw : Bracket.opening i :: (b ++ .closing i :: c) =
                (.opening i :: b ++ [.closing i]) ++ c := by simp
            have hkc : Balanced k c := (hw ▸ hk).split (hkb.wrap i)
            have hjc : Balanced j c := (hw ▸ hj).split (hjb.wrap i)
            have hpb : PairsBalance k j b := hpairs.of_infix (a := [.opening i])
              (c := .closing i :: c) (by simp)
            have hpc : PairsBalance k j c := hpairs.of_infix (c := []) (by rw [hw, List.append_nil])
            simp only [List.length_cons, List.length_append] at hn
            rw [hw]
            exact ((ih b.length (by omega) hkb hjb hpb rfl).wrap i).append
              (ih c.length (by omega) hkc hjc hpc rfl)
          cases x with
          | closing i =>
              rcases hkinds i with rfl | rfl
              · have := hk.nonneg [.closing i] (List.prefix_append [_] v)
                simp at this
              · have := hj.nonneg [.closing i] (List.prefix_append [_] v)
                simp at this
          | opening i =>
              rcases hkinds i with rfl | rfl
              · obtain ⟨b, c, rfl, hb, -⟩ := hk.first_return
                exact hjoin rfl rfl hb (hpairs [] b c rfl hb)
              · obtain ⟨b, c, rfl, hb, -⟩ := hj.first_return
                exact hjoin rfl rfl (hpairs.balanced_inside hjk hk hb) hb

/-- A word in one pair of kind `k` is nested exactly when the brackets of the
other kind balance between all pairs of kind `k`. -/
theorem nested_iff {j : κ} (hjk : j ≠ k) (hkinds : ∀ i, i = k ∨ i = j)
    {b : List (Bracket κ)} (hb : Balanced k b) :
    Nested (.opening k :: b ++ [.closing k]) ↔
      PairsBalance k j (.opening k :: b ++ [.closing k]) := by
  constructor
  · rintro h a b' c hw hb'
    exact ((hw ▸ h).between hb').balanced j
  · intro h
    exact nested_of_pairs hjk hkinds (hb.wrap k) ((h [] b [] rfl hb).wrap k) h

/-! ## A counter with a limit -/

/-- A counter of kind `k` that starts at `d` is between one and `max` up to the
end of the word, where it reaches zero. -/
structure Counts (k : κ) (max d : Int) (w : List (Bracket κ)) : Prop where
  total : d + height k w = 0
  within : ∀ p, p <+: w → p ≠ w → 0 < d + height k p ∧ d + height k p ≤ max

variable {max d : Int}

theorem Counts.cons {x : Bracket κ} {w : List (Bracket κ)} (hpos : 0 < d) (hmax : d ≤ max)
    (h : Counts k max (d + weight k x) w) : Counts k max d (x :: w) := by
  refine ⟨by rw [height_cons, ← Int.add_assoc]; exact h.total, ?_⟩
  refine forall_prefix_cons (fun _ => by rw [height_nil]; omega) fun p hp hne => ?_
  have := h.within p hp fun heq => hne (by rw [heq])
  rw [height_cons]
  omega

theorem Counts.last (hmax : 1 ≤ max) : Counts k max 1 [.closing k] := by
  refine ⟨by simp, forall_prefix_cons (fun _ => by rw [height_nil]; omega) fun p hp hne => ?_⟩
  exact absurd (by rw [List.prefix_nil.mp hp]) hne

/-- A word that a counter takes from one to zero ends with the closing bracket,
after a balanced word. -/
theorem Counts.shape {w : List (Bracket κ)} (h : Counts k max 1 w) :
    ∃ b, w = b ++ [.closing k] ∧ Balanced k b ∧ ∀ p, p <+: b → 1 + height k p ≤ max := by
  rcases List.eq_nil_or_concat' w with rfl | ⟨b, x, rfl⟩
  · have := h.total
    rw [height_nil] at this
    omega
  · have hwithin : ∀ p, p <+: b → 0 < 1 + height k p ∧ 1 + height k p ≤ max := by
      refine fun p hp => h.within p (hp.trans (List.prefix_append b [x])) fun heq => ?_
      have := hp.length_le
      rw [heq, List.length_append, List.length_singleton] at this
      omega
    have htotal := h.total
    rw [height_append, height_cons, height_nil] at htotal
    have hb := hwithin b List.prefix_rfl
    rcases weight_cases (k := k) x with rfl | rfl | hzero
    · rw [weight_opening] at htotal
      omega
    · rw [weight_closing] at htotal
      refine ⟨b, rfl, ⟨by omega, fun p hp => ?_⟩, fun p hp => (hwithin p hp).2⟩
      have := hwithin p hp
      omega
    · omega

/-! ## Depth -/

/-- The number of brackets of any kind that a word opens and does not close. -/
def level : List (Bracket κ) → Int
  | [] => 0
  | .opening _ :: w => 1 + level w
  | .closing _ :: w => -1 + level w

def DepthAtMost (n : Int) (w : List (Bracket κ)) : Prop := ∀ p, p <+: w → level p ≤ n

omit [DecidableEq κ] in
theorem level_append (u v : List (Bracket κ)) : level (u ++ v) = level u + level v := by
  induction u with
  | nil => rw [List.nil_append, level, Int.zero_add]
  | cons x u ih => cases x <;> rw [List.cons_append, level, level, ih, Int.add_assoc]

omit [DecidableEq κ] in
theorem depthAtMost_wrap {n : Int} {i : κ} {w : List (Bracket κ)} :
    DepthAtMost (n + 1) (.opening i :: w ++ [.closing i]) ↔ DepthAtMost n w := by
  constructor
  · intro h p hp
    have := h (.opening i :: p)
      (List.cons_prefix_cons.mpr ⟨rfl, hp.trans (List.prefix_append w _)⟩)
    rw [level] at this
    omega
  · intro h
    have hnil := h [] List.nil_prefix
    have hw := h w List.prefix_rfl
    rw [level] at hnil
    rw [DepthAtMost, List.cons_append]
    refine forall_prefix_cons (by rw [level]; omega) (forall_prefix_append (fun p hp => ?_) ?_)
    · have := h p hp
      rw [level]
      omega
    · refine forall_prefix_cons (by rw [List.append_nil, level]; omega) fun p hp => ?_
      rw [List.prefix_nil.mp hp, level, level_append, level, level]
      omega

theorem level_eq {j : κ} (hjk : j ≠ k) (hkinds : ∀ i, i = k ∨ i = j) (w : List (Bracket κ)) :
    level w = height k w + height j w := by
  induction w with
  | nil => rfl
  | cons x w ih =>
      cases x with
      | opening i =>
          rw [level, ih, height_cons, height_cons]
          rcases hkinds i with rfl | rfl
          · rw [weight_opening, weight_opening_of_ne hjk.symm]
            omega
          · rw [weight_opening, weight_opening_of_ne hjk]
            omega
      | closing i =>
          rw [level, ih, height_cons, height_cons]
          rcases hkinds i with rfl | rfl
          · rw [weight_closing, weight_closing_of_ne hjk.symm]
            omega
          · rw [weight_closing, weight_closing_of_ne hjk]
            omega

/-- Both kinds are open nowhere past the depth `n`. -/
def MixedAtMost (n : Int) (k j : κ) (w : List (Bracket κ)) : Prop :=
  ∀ p, p <+: w → 0 < height k p → 0 < height j p → level p ≤ n

theorem MixedAtMost.symm {n : Int} {k j : κ} {w : List (Bracket κ)} (h : MixedAtMost n k j w) :
    MixedAtMost n j k w :=
  fun p hp hj hk => h p hp hk hj

/-- Where one kind is counted up to a limit, the depth is within the limit
exactly when it is so wherever both kinds are open. -/
theorem depthAtMost_iff {j : κ} (hjk : j ≠ k) (hkinds : ∀ i, i = k ∨ i = j)
    {b : List (Bracket κ)} (hb : Balanced k b) (hmax : ∀ p, p <+: b → 1 + height k p ≤ max) :
    DepthAtMost max (.opening k :: b ++ [.closing k]) ↔
      MixedAtMost max k j (.opening k :: b ++ [.closing k]) := by
  constructor
  · exact fun h p hp _ _ => h p hp
  · intro h
    have hone := hmax [] (List.nil_prefix)
    rw [height_nil] at hone
    have hinner : ∀ p, p <+: b → level (.opening k :: p) ≤ max := fun p hp => by
      have hpre : .opening k :: p <+: .opening k :: b ++ [.closing k] :=
        List.cons_prefix_cons.mpr ⟨rfl, hp.trans (List.prefix_append b _)⟩
      have hmixed := h _ hpre
      have hpos := hb.nonneg p hp
      have hle := hmax p hp
      rw [level_eq hjk hkinds] at hmixed ⊢
      rw [height_cons, weight_opening] at *
      by_cases hj : 0 < height j (.opening k :: p)
      · exact hmixed (by omega) hj
      · omega
    rw [DepthAtMost, List.cons_append]
    refine forall_prefix_cons (by rw [level]; omega)
      (forall_prefix_append hinner fun p hp => ?_)
    have hfull := hinner b List.prefix_rfl
    rcases List.prefix_cons_iff.mp hp with rfl | ⟨q, rfl, hq⟩
    · rwa [List.append_nil]
    · rw [List.prefix_nil.mp hq]
      rw [level_eq hjk hkinds] at hfull ⊢
      rw [height_cons, height_cons] at hfull ⊢
      rw [height_append, height_append, height_cons, height_cons, weight_closing,
        weight_closing_of_ne hjk.symm, height_nil, height_nil]
      omega

end Bracket

end McpToolkit
