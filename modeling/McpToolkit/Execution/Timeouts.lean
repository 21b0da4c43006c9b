import McpToolkit.Execution.Guard
import Mathlib.Algebra.Group.Nat.Defs
/-!
# Timeouts over a run

Whatever is asked of a `TimeoutManager` between them, its guards are numbered one after
the other, and a guard that it has started runs out when the time that was asked for is
over.  The default is no part of this: no guard depends on it.
-/

namespace McpToolkit

inductive TimeoutOp where
  | startTimeout (duration : Int)
  | isTimeout (guard : TimeoutGuard)
  | setDefaultTimeout (ms : Int)
  | getDefaultTimeout
  deriving Repr, DecidableEq

structure TimeoutCall where
  op : TimeoutOp
  now : Int
  deriving Repr, DecidableEq

inductive TimeoutAnswer where
  | started (guard : TimeoutGuard)
  | elapsed (timedOut : Bool)
  | duration (ms : Int)
  | done
  deriving Repr, DecidableEq

abbrev TimeoutRecord := TimeoutCall × TimeoutAnswer

namespace TimeoutManager

def step (m : TimeoutManager) (c : TimeoutCall) : TimeoutAnswer × TimeoutManager :=
  match c.op with
  | .startTimeout duration =>
      let (guard, m) := m.startTimeout duration c.now
      (.started guard, m)
  | .isTimeout guard => (.elapsed (m.isTimeout guard c.now), m)
  | .setDefaultTimeout ms => (.done, m.setDefaultTimeout ms)
  | .getDefaultTimeout => (.duration m.getDefaultTimeout, m)

/-- The clock does not go back. -/
def Timely (past : List TimeoutRecord) (_ : TimeoutManager) (c : TimeoutCall) : Prop :=
  ∀ e ∈ past, e.1.now ≤ c.now

/-- The runs of a manager. -/
abbrev TimeoutRuns : List TimeoutRecord → TimeoutManager → Prop :=
  Machine.Runs step Timely {}

/-- The guards that a call has started. -/
def started (e : TimeoutRecord) : Option TimeoutGuard :=
  match e.2 with
  | .started guard => some guard
  | _ => none

/-- The guards, in the order in which they were started. -/
def guards (past : List TimeoutRecord) : List TimeoutGuard := past.filterMap started

/-- The default that was set last. -/
def latestDefault (past : List TimeoutRecord) : Int :=
  past.foldl (fun latest e =>
    match e.1.op with
    | .setDefaultTimeout ms => ms
    | _ => latest) 5000

/-- What a call does: it starts the next guard, or leaves the numbers as they are. -/
inductive Effect (m : TimeoutManager) : TimeoutRecord → TimeoutManager → Prop where
  | starts (duration now : Int) :
      Effect m (⟨.startTimeout duration, now⟩, .started ⟨m.nextId, now, duration⟩)
        { m with nextId := m.nextId + 1 }
  | asks (guard : TimeoutGuard) (now : Int) :
      Effect m (⟨.isTimeout guard, now⟩, .elapsed (m.isTimeout guard now)) m
  | sets (ms now : Int) :
      Effect m (⟨.setDefaultTimeout ms, now⟩, .done) { m with defaultTimeout := ms }
  | gets (now : Int) : Effect m (⟨.getDefaultTimeout, now⟩, .duration m.defaultTimeout) m

theorem effect_step (m : TimeoutManager) (c : TimeoutCall) :
    m.Effect (c, (m.step c).1) (m.step c).2 := by
  obtain ⟨op, now⟩ := c
  cases op with
  | startTimeout duration => exact .starts duration now
  | isTimeout guard => exact .asks guard now
  | setDefaultTimeout ms => exact .sets ms now
  | getDefaultTimeout => exact .gets now

/-- What a manager knows of its past. -/
structure Tracks (past : List TimeoutRecord) (m : TimeoutManager) : Prop where
  nextId : m.nextId = UInt64.ofNat (guards past).length
  ids : (guards past).map (·.timeoutId) = (List.range (guards past).length).map UInt64.ofNat
  default : m.defaultTimeout = latestDefault past

theorem Tracks.next {past : List TimeoutRecord} {m m' : TimeoutManager} {e : TimeoutRecord}
    (h : Tracks past m) (heffect : m.Effect e m') : Tracks (past ++ [e]) m' := by
  have hguards : guards (past ++ [e]) = guards past ++ (started e).toList := by
    rw [guards, List.filterMap_append]
    cases hstarted : started e with
    | none => rw [List.filterMap_cons_none hstarted]; rfl
    | some guard => rw [List.filterMap_cons_some hstarted]; rfl
  have hdefault : latestDefault (past ++ [e]) =
      match e.1.op with
      | .setDefaultTimeout ms => ms
      | _ => latestDefault past := by
    rw [latestDefault, List.foldl_append]
    rfl
  cases heffect with
  | starts duration now =>
      have hlength : ∀ g : TimeoutGuard, (guards past ++ [g]).length = (guards past).length + 1 :=
        fun g => List.length_append
      rw [started, Option.toList_some] at hguards
      refine ⟨?_, ?_, hdefault ▸ h.default⟩
      · rw [hguards, hlength, UInt64.ofNat_add, ← h.nextId]
        rfl
      · rw [hguards, hlength, List.map_append, h.ids, List.range_succ, List.map_append]
        exact congrArg _ (congrArg ([·]) h.nextId)
  | asks guard now =>
      rw [started, Option.toList_none, List.append_nil] at hguards
      exact ⟨hguards ▸ h.nextId, hguards ▸ h.ids, hdefault ▸ h.default⟩
  | sets ms now =>
      rw [started, Option.toList_none, List.append_nil] at hguards
      exact ⟨hguards ▸ h.nextId, hguards ▸ h.ids, hdefault.symm⟩
  | gets now =>
      rw [started, Option.toList_none, List.append_nil] at hguards
      exact ⟨hguards ▸ h.nextId, hguards ▸ h.ids, hdefault ▸ h.default⟩

theorem tracks_of_runs {past : List TimeoutRecord} {m : TimeoutManager} (h : TimeoutRuns past m) :
    Tracks past m :=
  h.invariant (I := Tracks) ⟨rfl, rfl, rfl⟩
    fun _ m c htracks _ => htracks.next (m.effect_step c)

theorem step_started {m : TimeoutManager} {c : TimeoutCall} {guard : TimeoutGuard}
    (h : (m.step c).1 = .started guard) :
    c.op = .startTimeout guard.timeoutMs ∧ c.now = guard.startTime := by
  have heffect := m.effect_step c
  rw [h] at heffect
  cases heffect
  exact ⟨rfl, rfl⟩

theorem step_elapsed {m : TimeoutManager} {c : TimeoutCall} {timedOut : Bool}
    (h : (m.step c).1 = .elapsed timedOut) :
    ∃ guard, c.op = .isTimeout guard ∧ timedOut = m.isTimeout guard c.now := by
  have heffect := m.effect_step c
  rw [h] at heffect
  cases heffect with
  | asks guard now => exact ⟨guard, rfl, rfl⟩

/-- In every run the guards are numbered from 0 on modulo 2^64, the default is the one that
was set last, and a guard that was started is found to have run out if and only if the
time that was asked for is over. -/
theorem timeouts_kept {past : List TimeoutRecord} {m : TimeoutManager} (h : TimeoutRuns past m) :
    (∀ i (g : TimeoutGuard), (guards past)[i]? = some g → g.timeoutId.toNat = i % 2 ^ 64) ∧
    m.getDefaultTimeout = latestDefault past ∧
    ∀ before c c' guard timedOut since, past = before ++ (c, .started guard) :: since →
      (c', .elapsed timedOut) ∈ since → c'.op = .isTimeout guard →
      ∃ duration, c.op = .startTimeout duration ∧
        (timedOut = true ↔ afterMs c.now duration ≤ c'.now) := by
  have htracks := tracks_of_runs h
  refine ⟨fun i g hi => ?_, htracks.default, ?_⟩
  · have hlt : i < (guards past).length := (List.getElem?_eq_some_iff.mp hi).1
    have hmap := congrArg (·[i]?) htracks.ids
    simp only [List.getElem?_map, hi, List.getElem?_range hlt, Option.map_some,
      Option.some.injEq] at hmap
    rw [hmap, UInt64.toNat_ofNat']
  · rintro before c c' guard timedOut since rfl hmem hop
    obtain ⟨mid, rest, rfl⟩ := List.append_of_mem hmem
    have hstarts : before ++ [(c, .started guard)] <+: before ++ (c, .started guard) ::
        (mid ++ (c', .elapsed timedOut) :: rest) :=
      ⟨mid ++ (c', .elapsed timedOut) :: rest, List.append_assoc _ _ _⟩
    have hasks : before ++ (c, .started guard) :: mid ++ [(c', .elapsed timedOut)] <+:
        before ++ (c, .started guard) :: (mid ++ (c', .elapsed timedOut) :: rest) :=
      ⟨rest, by simp⟩
    obtain ⟨m₁, -, -, hstarted⟩ := h.step_of_prefix hstarts
    obtain ⟨m₂, -, htimely, helapsed⟩ := h.step_of_prefix hasks
    obtain ⟨hduration, hnow⟩ := step_started hstarted.symm
    obtain ⟨guard', hop', hanswer⟩ := step_elapsed helapsed.symm
    rw [hop, TimeoutOp.isTimeout.injEq] at hop'
    have hle : guard.startTime ≤ c'.now :=
      hnow ▸ htimely (c, .started guard) (List.mem_append_right before List.mem_cons_self)
    refine ⟨guard.timeoutMs, hduration, ?_⟩
    rw [hanswer, ← hop', hnow]
    exact m₂.isTimeout_iff hle

/-- A guard of 5 ms, and a question after 6 ms. -/
def expiredPast : List TimeoutRecord :=
  [(⟨.startTimeout 5, 0⟩, .started ⟨0, 0, 5⟩), (⟨.isTimeout ⟨0, 0, 5⟩, 6000000⟩, .elapsed true)]

theorem runs_expiredPast : TimeoutRuns expiredPast { nextId := 1 } := by
  have hfirst : TimeoutRuns (expiredPast.take 1) { nextId := 1 } :=
    Machine.Runs.start.extend (List.forall_mem_nil _) rfl
  exact hfirst.extend (by unfold Timely; decide) rfl

theorem timeouts_kept_of_expired :
    (∃ g, (guards expiredPast)[0]? = some g ∧ g.timeoutId.toNat = 0 % 2 ^ 64) ∧
      afterMs 0 5 ≤ 6000000 := by
  obtain ⟨hids, -, hkept⟩ := timeouts_kept runs_expiredPast
  obtain ⟨duration, hop, hiff⟩ := hkept [] _ _ _ _ _ rfl (List.mem_singleton_self _) rfl
  cases hop
  exact ⟨⟨_, rfl, hids 0 _ rfl⟩, hiff.mp rfl⟩

end TimeoutManager

end McpToolkit
