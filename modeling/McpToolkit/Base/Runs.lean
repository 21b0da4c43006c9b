import Mathlib.Data.List.Infix
/-!
# Runs of a machine

A machine answers an input in a state with an output and a new state.  A run is
known by its past: the inputs that were given, each with the answer it got.  Which
inputs may come next can depend on the past and on the state.
-/

namespace McpToolkit

theorem forall_prefix_concat {α : Type} {Q : List α → α → Prop} {l : List α} {a : α} :
    (∀ before b, before ++ [b] <+: l ++ [a] → Q before b) ↔
      (∀ before b, before ++ [b] <+: l → Q before b) ∧ Q l a := by
  constructor
  · exact fun h => ⟨fun before b hbegins => h before b (hbegins.trans (List.prefix_append l [a])),
      h l a (List.prefix_refl _)⟩
  · rintro ⟨hl, ha⟩ before b hbegins
    rcases List.prefix_concat_iff.mp hbegins with heq | hbegins
    · obtain ⟨rfl, hb⟩ := List.append_inj' heq rfl
      cases hb
      exact ha
    · exact hl before b hbegins

namespace Machine

variable {σ ι ο : Type}

/-- The pasts of a machine that starts in `s₀`, with the states that they lead to. -/
inductive Runs (step : σ → ι → ο × σ) (Allows : List (ι × ο) → σ → ι → Prop) (s₀ : σ) :
    List (ι × ο) → σ → Prop where
  | start : Runs step Allows s₀ [] s₀
  | next {past : List (ι × ο)} {s : σ} (i : ι) : Runs step Allows s₀ past s → Allows past s i →
      Runs step Allows s₀ (past ++ [(i, (step s i).1)]) (step s i).2

variable {step : σ → ι → ο × σ} {Allows : List (ι × ο) → σ → ι → Prop} {s₀ s : σ}
variable {past : List (ι × ο)}

/-- The last step of a run. -/
theorem Runs.last {i : ι} {o : ο} (h : Runs step Allows s₀ (past ++ [(i, o)]) s) :
    ∃ s₁, Runs step Allows s₀ past s₁ ∧ Allows past s₁ i ∧ o = (step s₁ i).1 ∧
      s = (step s₁ i).2 := by
  generalize hpast : past ++ [(i, o)] = all at h
  cases h with
  | start => simp at hpast
  | next j hrun hallows =>
      obtain ⟨rfl, hlast⟩ := List.append_inj' hpast rfl
      cases hlast
      exact ⟨_, hrun, hallows, rfl, rfl⟩

theorem Runs.extend {i : ι} {o : ο} {s' : σ} (h : Runs step Allows s₀ past s)
    (hallows : Allows past s i) (hstep : step s i = (o, s')) :
    Runs step Allows s₀ (past ++ [(i, o)]) s' := by
  have hnext := h.next i hallows
  rw [hstep] at hnext
  exact hnext

/-- The beginning of a run is a run. -/
theorem Runs.of_append {before after : List (ι × ο)}
    (h : Runs step Allows s₀ (before ++ after) s) : ∃ s₁, Runs step Allows s₀ before s₁ := by
  induction after using List.reverseRecOn generalizing s with
  | nil =>
      rw [List.append_nil] at h
      exact ⟨s, h⟩
  | append_singleton after e ih =>
      rw [← List.append_assoc] at h
      obtain ⟨s₁, hrun, -⟩ := h.last
      exact ih hrun

/-- The step at any point of a run. -/
theorem Runs.step_of_prefix {before : List (ι × ο)} {i : ι} {o : ο}
    (h : Runs step Allows s₀ past s) (hbegins : before ++ [(i, o)] <+: past) :
    ∃ s₁, Runs step Allows s₀ before s₁ ∧ Allows before s₁ i ∧ o = (step s₁ i).1 := by
  obtain ⟨after, rfl⟩ := hbegins
  obtain ⟨s₂, hrun⟩ := h.of_append
  obtain ⟨s₁, hbefore, hallows, ho, -⟩ := hrun.last
  exact ⟨s₁, hbefore, hallows, ho⟩

/-- Runs on any inputs. -/
abbrev FreeRuns (step : σ → ι → ο × σ) (s₀ : σ) : List (ι × ο) → σ → Prop :=
  Runs step (fun _ _ _ => True) s₀

theorem Runs.free (h : Runs step Allows s₀ past s) : FreeRuns step s₀ past s := by
  induction h with
  | start => exact .start
  | next i _ _ ih => exact .next i ih trivial

/-- `P` holds of every input in the state in which it was given. -/
def Everywhere (step : σ → ι → ο × σ) (s₀ : σ) (P : σ → ι → Prop) (past : List (ι × ο)) : Prop :=
  ∀ before i o s, before ++ [(i, o)] <+: past →
    FreeRuns step s₀ before s → P s i

theorem Everywhere.of_append {P : σ → ι → Prop} {before after : List (ι × ο)}
    (hP : Everywhere step s₀ P (before ++ after)) : Everywhere step s₀ P before :=
  fun earlier i o s hbegins hrun =>
    hP earlier i o s (hbegins.trans (List.prefix_append before after)) hrun

theorem Runs.eq_start (h : Runs step Allows s₀ [] s) : s = s₀ := by
  generalize hpast : ([] : List (ι × ο)) = past at h
  cases h with
  | start => rfl
  | next i hrun hallows => simp at hpast

/-- A past leads to one state. -/
theorem Runs.unique {s' : σ} (h : Runs step Allows s₀ past s) (h' : Runs step Allows s₀ past s') :
    s = s' := by
  induction past using List.reverseRecOn generalizing s s' with
  | nil => rw [h.eq_start, h'.eq_start]
  | append_singleton past e ih =>
      obtain ⟨s₁, h₁, -, -, rfl⟩ := h.last
      obtain ⟨s₂, h₂, -, -, rfl⟩ := h'.last
      rw [ih h₁ h₂]

/-- It holds everywhere exactly if it holds before the last input and at it. -/
theorem everywhere_concat {P : σ → ι → Prop} {i : ι} {o : ο} (h : FreeRuns step s₀ past s) :
    Everywhere step s₀ P (past ++ [(i, o)]) ↔ Everywhere step s₀ P past ∧ P s i := by
  have heach : ∀ l, Everywhere step s₀ P l ↔ ∀ before b, before ++ [b] <+: l →
      ∀ s', FreeRuns step s₀ before s' → P s' b.1 :=
    fun l => ⟨fun hP before b hbegins s' => hP before b.1 b.2 s' hbegins,
      fun hP before i o s' hbegins => hP before (i, o) hbegins s'⟩
  have hlast : (∀ s', FreeRuns step s₀ past s' → P s' i) ↔ P s i := by
    refine ⟨fun hP => hP s h, fun hP s' h' => ?_⟩
    rwa [← h.unique h']
  rw [heach, forall_prefix_concat, ← heach, hlast]

/-! ## Rules -/

/-- What holds at the start and is kept by every step that is allowed holds in every state. -/
theorem Runs.invariant {I : List (ι × ο) → σ → Prop} (h : Runs step Allows s₀ past s)
    (hstart : I [] s₀)
    (hstep : ∀ past s i, I past s → Allows past s i → I (past ++ [(i, (step s i).1)]) (step s i).2) :
    I past s := by
  induction h with
  | start => exact hstart
  | next i _ hallows ih => exact hstep _ _ i ih hallows

/-- A machine whose steps are steps of another machine, or do not show there, has its runs
with the same answers. -/
theorem Runs.refines {σ' ι' ο' : Type} {step' : σ' → ι' → ο' × σ'} {s₀' : σ'}
    (view : ι × ο → Option (ι' × ο')) (abs : σ → σ') (hstart : abs s₀ = s₀')
    (hshown : ∀ s i i' o', view (i, (step s i).1) = some (i', o') →
      step' (abs s) i' = (o', abs (step s i).2))
    (hhidden : ∀ s i, view (i, (step s i).1) = none → abs (step s i).2 = abs s)
    (h : Runs step Allows s₀ past s) :
    FreeRuns step' s₀' (past.filterMap view) (abs s) := by
  induction h with
  | start =>
      rw [hstart]
      exact .start
  | @next past s i _ _ ih =>
      rw [List.filterMap_append]
      cases hview : view (i, (step s i).1) with
      | none =>
          rw [List.filterMap_cons_none hview, List.filterMap_nil, List.append_nil,
            hhidden s i hview]
          exact ih
      | some io =>
          rw [List.filterMap_cons_some hview]
          exact ih.extend trivial (hshown s i io.1 io.2 hview)

/-! ## States since a property last held -/

/-- A state in which the run has been since `P` last held, or since the start. -/
def Since (step : σ → ι → ο × σ) (s₀ : σ) (P : σ → Prop) (past : List (ι × ο)) (s : σ) : Prop :=
  ∃ before since, past = before ++ since ∧ FreeRuns step s₀ before s ∧
    ∀ mid rest s', since = mid ++ rest → mid ≠ [] → FreeRuns step s₀ (before ++ mid) s' → ¬ P s'

theorem since_nil {P : σ → Prop} : Since step s₀ P [] s ↔ s = s₀ := by
  constructor
  · rintro ⟨before, since, hpast, hrun, -⟩
    obtain ⟨rfl, -⟩ := List.append_eq_nil_iff.mp hpast.symm
    exact hrun.eq_start
  · rintro rfl
    refine ⟨[], [], rfl, .start, fun mid rest s' hsince hmid => ?_⟩
    exact absurd (List.append_eq_nil_iff.mp hsince.symm).1 hmid

/-- One more step. -/
theorem since_concat {P : σ → Prop} {e : ι × ο} {s₁ : σ}
    (h : FreeRuns step s₀ (past ++ [e]) s) :
    Since step s₀ P (past ++ [e]) s₁ ↔ s₁ = s ∨ ¬ P s ∧ Since step s₀ P past s₁ := by
  constructor
  · rintro ⟨before, since, hpast, hrun, hnot⟩
    rcases List.eq_nil_or_concat' since with rfl | ⟨since, e', rfl⟩
    · rw [List.append_nil] at hpast
      rw [← hpast] at hrun
      exact .inl (hrun.unique h)
    · rw [← List.append_assoc] at hpast
      obtain ⟨rfl, he⟩ := List.append_inj' hpast rfl
      obtain rfl := List.singleton_inj.mp he
      refine .inr ⟨hnot _ [] s (List.append_nil _).symm (by simp) ?_, before, since, rfl, hrun,
        fun mid rest s' hsince => hnot mid (rest ++ [e]) s' ?_⟩
      · rwa [← List.append_assoc]
      · rw [hsince, List.append_assoc]
  · rintro (rfl | ⟨hP, before, since, rfl, hrun, hnot⟩)
    · refine ⟨past ++ [e], [], (List.append_nil _).symm, h, fun mid rest s' hsince hmid => ?_⟩
      exact absurd (List.append_eq_nil_iff.mp hsince.symm).1 hmid
    · refine ⟨before, since ++ [e], List.append_assoc _ _ _, hrun,
        fun mid rest s' hsince hmid hmidrun => ?_⟩
      rcases List.eq_nil_or_concat' rest with rfl | ⟨rest, e', rfl⟩
      · rw [List.append_nil] at hsince
        rw [← hsince, ← List.append_assoc] at hmidrun
        rwa [hmidrun.unique h]
      · rw [← List.append_assoc] at hsince
        exact hnot mid rest s' (List.append_inj' hsince rfl).1 hmid hmidrun

/-! ## Inputs that do not show -/

/-- The records of some inputs, which are given one after the other. -/
def records (step : σ → ι → ο × σ) : σ → List ι → List (ι × ο)
  | _, [] => []
  | s, i :: inputs => (i, (step s i).1) :: records step (step s i).2 inputs

theorem records_inputs (s : σ) (inputs : List ι) :
    (records step s inputs).map Prod.fst = inputs := by
  induction inputs generalizing s with
  | nil => rfl
  | cons i inputs ih => rw [records, List.map_cons, ih]

/-- A run goes on with any inputs. -/
theorem Runs.records (h : FreeRuns step s₀ past s) (inputs : List ι) :
    FreeRuns step s₀ (past ++ records step s inputs)
      (inputs.foldl (fun s i => (step s i).2) s) := by
  induction inputs generalizing past s with
  | nil =>
      rw [Machine.records, List.append_nil]
      exact h
  | cons i inputs ih =>
      rw [Machine.records, List.append_cons]
      exact ih (h.next i trivial)

/-- An observer does not notice some inputs if a relation between the states with and
without them is kept.  The relation can depend on the inputs that are still to come. -/
theorem observe_records {ω : Type} (observe : ι × ο → Option ω) (hidden : ι → Bool)
    {R : List ι → σ → σ → Prop}
    (hhidden : ∀ i inputs s' s, R (i :: inputs) s' s → hidden i = true →
      observe (i, (step s' i).1) = none ∧ R inputs (step s' i).2 s)
    (hshown : ∀ i inputs s' s, R (i :: inputs) s' s → hidden i = false →
      observe (i, (step s' i).1) = observe (i, (step s i).1) ∧
        R inputs (step s' i).2 (step s i).2)
    {inputs : List ι} {s' s : σ} (h : R inputs s' s) :
    (records step s' inputs).filterMap observe =
      (records step s (inputs.filter fun i => !hidden i)).filterMap observe := by
  induction inputs generalizing s' s with
  | nil => rfl
  | cons i inputs ih =>
      rw [records, List.filterMap_cons]
      cases hi : hidden i with
      | true =>
          obtain ⟨hnone, hrest⟩ := hhidden i inputs s' s h hi
          rw [hnone, List.filter_cons_of_neg (by simp [hi])]
          exact ih hrest
      | false =>
          obtain ⟨hsame, hrest⟩ := hshown i inputs s' s h hi
          rw [List.filter_cons_of_pos (by simp [hi]), records, List.filterMap_cons, hsame,
            ih hrest]

end Machine

end McpToolkit
