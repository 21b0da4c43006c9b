import McpToolkit.Base.Bytes
import McpToolkit.Base.Runs
import McpToolkit.Base.Table
import Mathlib.Data.List.DropRight
/-!
# Resource metrics

`ResourceMonitor` as the sources have it, and what it reports: the requests, the times and
the largest size of a tool since it was last reset.  The type of the times is a parameter;
all that is used of it is that times are added up, one after the other from zero.
-/

namespace McpToolkit

structure ResourceMetrics (τ : Type) where
  toolName : Bytes
  cpuTimeMs : τ
  memoryPeakKb : Nat := 0
  requestCount : UInt64 := 0
  rejectionCount : UInt64 := 0
  deriving Repr, DecidableEq

structure ResourceMonitor (τ : Type) where
  metrics : Table Bytes (ResourceMetrics τ) := ∅

variable {τ : Type}

section operations

variable [Zero τ]

/-- The constructor. -/
def ResourceMetrics.new (name : Bytes) : ResourceMetrics τ := { toolName := name, cpuTimeMs := 0 }

namespace ResourceMonitor

/-- What the four functions that record have in common: an entry is made if there is none,
and then changed in place. -/
def record (m : ResourceMonitor τ) (toolName : Bytes)
    (change : ResourceMetrics τ → ResourceMetrics τ) : ResourceMonitor τ :=
  let metrics := match m.metrics.lookup toolName with
    | none => m.metrics.insert toolName (ResourceMetrics.new toolName)
    | some _ => m.metrics
  let entry := (metrics.lookup toolName).getD (ResourceMetrics.new [])
  { metrics := metrics.insert toolName (change entry) }

def recordRequest (m : ResourceMonitor τ) (toolName : Bytes) : ResourceMonitor τ :=
  m.record toolName fun r => { r with requestCount := r.requestCount + 1 }

def recordRejection (m : ResourceMonitor τ) (toolName : Bytes) : ResourceMonitor τ :=
  m.record toolName fun r => { r with rejectionCount := r.rejectionCount + 1 }

def recordCpuTime [Add τ] (m : ResourceMonitor τ) (toolName : Bytes) (cpuMs : τ) :
    ResourceMonitor τ :=
  m.record toolName fun r => { r with cpuTimeMs := r.cpuTimeMs + cpuMs }

def recordMemory (m : ResourceMonitor τ) (toolName : Bytes) (memoryKb : Nat) :
    ResourceMonitor τ :=
  m.record toolName fun r =>
    if memoryKb > r.memoryPeakKb then { r with memoryPeakKb := memoryKb } else r

def getMetrics (m : ResourceMonitor τ) (toolName : Bytes) : ResourceMetrics τ :=
  match m.metrics.lookup toolName with
  | some r => r
  | none => ResourceMetrics.new toolName

def resetMetrics (m : ResourceMonitor τ) (toolName : Bytes) : ResourceMonitor τ :=
  match m.metrics.lookup toolName with
  | some _ => { metrics := m.metrics.insert toolName (ResourceMetrics.new toolName) }
  | none => m

def resetAll (_ : ResourceMonitor τ) : ResourceMonitor τ := { metrics := ∅ }

end ResourceMonitor

end operations

/-! ## Runs -/

inductive MonitorCall (τ : Type) where
  | recordRequest (toolName : Bytes)
  | recordRejection (toolName : Bytes)
  | recordCpuTime (toolName : Bytes) (cpuMs : τ)
  | recordMemory (toolName : Bytes) (memoryKb : Nat)
  | getMetrics (toolName : Bytes)
  | resetMetrics (toolName : Bytes)
  | resetAll

/-- One call at a time, as the mutex has it. -/
def ResourceMonitor.step [Zero τ] [Add τ] (m : ResourceMonitor τ) :
    MonitorCall τ → Option (ResourceMetrics τ) × ResourceMonitor τ
  | .recordRequest toolName => (none, m.recordRequest toolName)
  | .recordRejection toolName => (none, m.recordRejection toolName)
  | .recordCpuTime toolName cpuMs => (none, m.recordCpuTime toolName cpuMs)
  | .recordMemory toolName memoryKb => (none, m.recordMemory toolName memoryKb)
  | .getMetrics toolName => (some (m.getMetrics toolName), m)
  | .resetMetrics toolName => (none, m.resetMetrics toolName)
  | .resetAll => (none, m.resetAll)

abbrev MonitorRuns [Zero τ] [Add τ] :
    List (MonitorCall τ × Option (ResourceMetrics τ)) → ResourceMonitor τ → Prop :=
  Machine.FreeRuns ResourceMonitor.step {}

/-! ## What is to be reported -/

namespace MonitorCall

def resets (t : Bytes) : MonitorCall τ → Bool
  | .resetMetrics toolName => toolName = t
  | .resetAll => true
  | _ => false

/-- The tool that something is recorded of. -/
def recorded : MonitorCall τ → Option Bytes
  | .recordRequest toolName => some toolName
  | .recordRejection toolName => some toolName
  | .recordCpuTime toolName _ => some toolName
  | .recordMemory toolName _ => some toolName
  | _ => none

def isRequest (t : Bytes) : MonitorCall τ → Bool
  | .recordRequest toolName => toolName = t
  | _ => false

def isRejection (t : Bytes) : MonitorCall τ → Bool
  | .recordRejection toolName => toolName = t
  | _ => false

def cpuTime (t : Bytes) : MonitorCall τ → Option τ
  | .recordCpuTime toolName cpuMs => if toolName = t then some cpuMs else none
  | _ => none

def memory (t : Bytes) : MonitorCall τ → Option Nat
  | .recordMemory toolName memoryKb => if toolName = t then some memoryKb else none
  | _ => none

end MonitorCall

/-- The calls since the tool was last reset. -/
def sinceReset (t : Bytes) (calls : List (MonitorCall τ)) : List (MonitorCall τ) :=
  calls.rtakeWhile fun c => !c.resets t

/-- What the calls add up to for a tool. -/
def usage [Zero τ] [Add τ] (t : Bytes) (calls : List (MonitorCall τ)) : ResourceMetrics τ where
  toolName := t
  cpuTimeMs := ((sinceReset t calls).filterMap (·.cpuTime t)).foldl (· + ·) 0
  memoryPeakKb := ((sinceReset t calls).filterMap (·.memory t)).foldl max 0
  requestCount := UInt64.ofNat ((sinceReset t calls).countP (·.isRequest t))
  rejectionCount := UInt64.ofNat ((sinceReset t calls).countP (·.isRejection t))

/-- Something has been recorded of the tool since all of them were reset. -/
def Tracked (t : Bytes) (calls : List (MonitorCall τ)) : Prop :=
  ∃ before after c, calls = before ++ c :: after ∧ c.recorded = some t ∧ .resetAll ∉ after

/-! ## One call -/

section calls

variable (t : Bytes) (calls : List (MonitorCall τ))

theorem sinceReset_concat (c : MonitorCall τ) (h : c.resets t = false) :
    sinceReset t (calls ++ [c]) = sinceReset t calls ++ [c] := by
  rw [sinceReset, List.rtakeWhile_concat_pos _ _ _ (by rw [h]; rfl)]
  rfl

theorem tracked_nil : ¬ Tracked t ([] : List (MonitorCall τ)) := by
  rintro ⟨before, after, c, hcalls, -⟩
  exact absurd hcalls.symm (by simp)

theorem tracked_concat (c : MonitorCall τ) : Tracked t (calls ++ [c]) ↔
    c.recorded = some t ∨ c ≠ .resetAll ∧ Tracked t calls := by
  constructor
  · rintro ⟨before, after, d, hcalls, hd, hafter⟩
    rcases List.eq_nil_or_concat' after with rfl | ⟨after, e, rfl⟩
    · obtain ⟨rfl, hc⟩ := List.append_inj' hcalls rfl
      rw [List.singleton_inj.mp hc]
      exact .inl hd
    · rw [← List.cons_append, ← List.append_assoc] at hcalls
      obtain ⟨rfl, hc⟩ := List.append_inj' hcalls rfl
      obtain rfl := List.singleton_inj.mp hc
      rw [List.mem_append, not_or, List.mem_singleton] at hafter
      exact .inr ⟨fun heq => hafter.2 heq.symm, before, after, d, rfl, hd, hafter.1⟩
  · rintro (hc | ⟨hc, before, after, d, rfl, hd, hafter⟩)
    · exact ⟨calls, [], c, rfl, hc, List.not_mem_nil⟩
    · refine ⟨before, after ++ [c], d, by simp, hd, ?_⟩
      rw [List.mem_append, not_or, List.mem_singleton]
      exact ⟨hafter, hc.symm⟩

variable [Zero τ] [Add τ]

theorem usage_reset (c : MonitorCall τ) (h : c.resets t = true) :
    usage t (calls ++ [c]) = ResourceMetrics.new t := by
  have hsince : sinceReset t (calls ++ [c]) = [] := by
    rw [sinceReset, List.rtakeWhile_concat_neg]
    simp [h]
  rw [usage, hsince]
  rfl

theorem usage_other (c : MonitorCall τ) (hresets : c.resets t = false)
    (hrecorded : c.recorded ≠ some t) : usage t (calls ++ [c]) = usage t calls := by
  have hnothing : c.isRequest t = false ∧ c.isRejection t = false ∧ c.cpuTime t = none ∧
      c.memory t = none := by
    cases c <;>
      simp_all [MonitorCall.recorded, MonitorCall.isRequest, MonitorCall.isRejection,
        MonitorCall.cpuTime, MonitorCall.memory]
  obtain ⟨hrequest, hrejection, hcpu, hmemory⟩ := hnothing
  simp [usage, sinceReset_concat t calls c hresets, hrequest, hrejection, hcpu, hmemory]

theorem usage_recordRequest : usage t (calls ++ [.recordRequest t]) =
    { usage t calls with requestCount := (usage t calls).requestCount + 1 } := by
  have hsince := sinceReset_concat t calls (.recordRequest t) rfl
  simp [usage, hsince, MonitorCall.isRequest, MonitorCall.isRejection, MonitorCall.cpuTime,
    MonitorCall.memory, UInt64.ofNat_add]

theorem usage_recordRejection : usage t (calls ++ [.recordRejection t]) =
    { usage t calls with rejectionCount := (usage t calls).rejectionCount + 1 } := by
  have hsince := sinceReset_concat t calls (.recordRejection t) rfl
  simp [usage, hsince, MonitorCall.isRequest, MonitorCall.isRejection, MonitorCall.cpuTime,
    MonitorCall.memory, UInt64.ofNat_add]

theorem usage_recordCpuTime (cpuMs : τ) : usage t (calls ++ [.recordCpuTime t cpuMs]) =
    { usage t calls with cpuTimeMs := (usage t calls).cpuTimeMs + cpuMs } := by
  have hsince := sinceReset_concat t calls (.recordCpuTime t cpuMs) rfl
  simp [usage, hsince, MonitorCall.isRequest, MonitorCall.isRejection, MonitorCall.cpuTime,
    MonitorCall.memory]

theorem usage_recordMemory (memoryKb : Nat) : usage t (calls ++ [.recordMemory t memoryKb]) =
    { usage t calls with memoryPeakKb := max (usage t calls).memoryPeakKb memoryKb } := by
  have hsince := sinceReset_concat t calls (.recordMemory t memoryKb) rfl
  simp [usage, hsince, MonitorCall.isRequest, MonitorCall.isRejection, MonitorCall.cpuTime,
    MonitorCall.memory]

end calls

namespace ResourceMonitor

section change

variable [Zero τ] (m : ResourceMonitor τ) (toolName : Bytes)
variable (change : ResourceMetrics τ → ResourceMetrics τ)

theorem getMetrics_record (t : Bytes) : (m.record toolName change).getMetrics t =
    if t = toolName then change (m.getMetrics t) else m.getMetrics t := by
  unfold record getMetrics
  by_cases ht : t = toolName
  · subst ht
    rw [if_pos rfl]
    cases hlookup : m.metrics.lookup t <;> simp [hlookup]
  · rw [if_neg ht]
    cases hlookup : m.metrics.lookup toolName <;> simp [ht]

theorem isSome_record (t : Bytes) : ((m.record toolName change).metrics.lookup t).isSome ↔
    t = toolName ∨ (m.metrics.lookup t).isSome := by
  unfold record
  by_cases ht : t = toolName
  · subst ht
    simp
  · cases hlookup : m.metrics.lookup toolName <;> simp [ht]

theorem getMetrics_resetMetrics (t : Bytes) : (m.resetMetrics toolName).getMetrics t =
    if t = toolName then ResourceMetrics.new t else m.getMetrics t := by
  unfold resetMetrics
  by_cases ht : t = toolName
  · subst ht
    rw [if_pos rfl]
    cases hlookup : m.metrics.lookup t <;> simp [getMetrics, hlookup]
  · rw [if_neg ht]
    cases hlookup : m.metrics.lookup toolName <;> simp [getMetrics, ht]

theorem isSome_resetMetrics (t : Bytes) :
    ((m.resetMetrics toolName).metrics.lookup t).isSome ↔ (m.metrics.lookup t).isSome := by
  unfold resetMetrics
  by_cases ht : t = toolName
  · subst ht
    cases hlookup : m.metrics.lookup t <;> simp [hlookup]
  · cases hlookup : m.metrics.lookup toolName <;> simp [ht]

end change

section reports

variable [Zero τ] [Add τ]

/-- The monitor reports what its calls add up to, and has an entry for each tool that
something has been recorded of. -/
structure Reports (calls : List (MonitorCall τ)) (m : ResourceMonitor τ) : Prop where
  metrics : ∀ t, m.getMetrics t = usage t calls
  entries : ∀ t, (m.metrics.lookup t).isSome ↔ Tracked t calls

variable {calls : List (MonitorCall τ)} {m : ResourceMonitor τ}

/-- A call that records something of a tool. -/
theorem Reports.record (h : Reports calls m) {c : MonitorCall τ} {toolName : Bytes}
    {change : ResourceMetrics τ → ResourceMetrics τ}
    (hstep : (m.step c).2 = m.record toolName change) (hrecorded : c.recorded = some toolName)
    (husage : usage toolName (calls ++ [c]) = change (usage toolName calls)) :
    Reports (calls ++ [c]) (m.step c).2 where
  metrics t := by
    rw [hstep, getMetrics_record, h.metrics]
    by_cases ht : t = toolName
    · rw [ht, if_pos rfl, husage]
    · have hresets : c.resets t = false := by
        cases c with
        | resetMetrics toolName' => cases hrecorded
        | resetAll => cases hrecorded
        | _ => rfl
      have hother : c.recorded ≠ some t := by
        rw [hrecorded]
        exact fun heq => ht (Option.some.inj heq).symm
      rw [if_neg ht, usage_other t calls c hresets hother]
  entries t := by
    have hall : c ≠ .resetAll := by
      rintro rfl
      cases hrecorded
    rw [hstep, isSome_record, tracked_concat, hrecorded, h.entries, Option.some.injEq, eq_comm]
    exact or_congr_right (and_iff_right hall).symm

theorem Reports.step (h : Reports calls m) (c : MonitorCall τ) :
    Reports (calls ++ [c]) (m.step c).2 := by
  cases c with
  | recordRequest toolName =>
      have hstep : (m.step (.recordRequest toolName)).2 =
        m.record toolName fun r => { r with requestCount := r.requestCount + 1 } := rfl
      exact h.record hstep rfl (usage_recordRequest toolName calls)
  | recordRejection toolName =>
      have hstep : (m.step (.recordRejection toolName)).2 =
        m.record toolName fun r => { r with rejectionCount := r.rejectionCount + 1 } := rfl
      exact h.record hstep rfl (usage_recordRejection toolName calls)
  | recordCpuTime toolName cpuMs =>
      have hstep : (m.step (.recordCpuTime toolName cpuMs)).2 =
        m.record toolName fun r => { r with cpuTimeMs := r.cpuTimeMs + cpuMs } := rfl
      exact h.record hstep rfl (usage_recordCpuTime toolName calls cpuMs)
  | recordMemory toolName memoryKb =>
      have hstep : (m.step (.recordMemory toolName memoryKb)).2 = m.record toolName fun r =>
        if memoryKb > r.memoryPeakKb then { r with memoryPeakKb := memoryKb } else r := rfl
      refine h.record hstep rfl ?_
      rw [usage_recordMemory]
      split_ifs with hpeak
      · rw [max_eq_right (Nat.le_of_lt hpeak)]
      · rw [max_eq_left (Nat.not_lt.mp hpeak)]
  | getMetrics toolName =>
      refine ⟨fun t => ?_, fun t => ?_⟩
      · rw [usage_other t calls (.getMetrics toolName) rfl (Option.some_ne_none _).symm]
        exact h.metrics t
      · change (m.metrics.lookup t).isSome ↔ _
        rw [tracked_concat]
        simpa [MonitorCall.recorded] using h.entries t
  | resetMetrics toolName =>
      refine ⟨fun t => ?_, fun t => ?_⟩
      · change (m.resetMetrics toolName).getMetrics t = _
        rw [getMetrics_resetMetrics, h.metrics]
        by_cases ht : t = toolName
        · rw [if_pos ht, usage_reset t calls (.resetMetrics toolName) (decide_eq_true ht.symm)]
        · rw [if_neg ht, usage_other t calls (.resetMetrics toolName)
            (decide_eq_false (Ne.symm ht)) (Option.some_ne_none _).symm]
      · change ((m.resetMetrics toolName).metrics.lookup t).isSome ↔ _
        rw [isSome_resetMetrics, tracked_concat]
        simpa [MonitorCall.recorded] using h.entries t
  | resetAll =>
      refine ⟨fun t => (usage_reset t calls .resetAll rfl).symm, fun t => ?_⟩
      rw [tracked_concat]
      simp [MonitorCall.recorded, ResourceMonitor.step, resetAll]

/-- In every run, what is reported of a tool is what its calls since its last reset add up
to, whatever is recorded of other tools: the counts modulo 2^64, the times in their order,
and the largest size.  There are entries for the tools of which something has been
recorded since all were reset, and for no others. -/
theorem metrics_reported {past : List (MonitorCall τ × Option (ResourceMetrics τ))}
    (h : MonitorRuns past m) :
    (∀ before toolName answer, before ++ [(.getMetrics toolName, answer)] <+: past →
      answer = some (usage toolName (before.map Prod.fst))) ∧
    ∀ t, (m.metrics.lookup t).isSome ↔ Tracked t (past.map Prod.fst) := by
  have hreports : ∀ {past : List (MonitorCall τ × Option (ResourceMetrics τ))}
      {m : ResourceMonitor τ}, MonitorRuns past m → Reports (past.map Prod.fst) m := by
    intro past m h
    apply h.invariant (I := fun past m => Reports (past.map Prod.fst) m)
    · exact ⟨fun t => rfl, fun t => iff_of_false (by simp) (tracked_nil t)⟩
    · intro past m c hreports _
      rw [List.map_append]
      exact hreports.step c
  refine ⟨fun before toolName answer hbegins => ?_, (hreports h).entries⟩
  obtain ⟨m₁, hrun, -, hanswer⟩ := h.step_of_prefix hbegins
  rw [hanswer, ← (hreports hrun).metrics]
  rfl

end reports

/-- Two requests for a tool, and a question. -/
def countedPast : List (MonitorCall Nat × Option (ResourceMetrics Nat)) :=
  [(.recordRequest (ascii "t"), none), (.recordRequest (ascii "t"), none),
    (.getMetrics (ascii "t"), some ⟨ascii "t", 0, 0, 2, 0⟩)]

theorem runs_countedPast : ∃ m, MonitorRuns countedPast m := by
  have hfirst : MonitorRuns (countedPast.take 1) _ := Machine.Runs.start.extend trivial rfl
  have hsecond : MonitorRuns (countedPast.take 2) _ := hfirst.extend trivial rfl
  exact ⟨_, hsecond.extend trivial rfl⟩

theorem metrics_reported_of_counted :
    usage (ascii "t") ((countedPast.take 2).map Prod.fst) = ⟨ascii "t", 0, 0, 2, 0⟩ := by
  obtain ⟨m, hrun⟩ := runs_countedPast
  have hanswer := (metrics_reported hrun).1 (countedPast.take 2) (ascii "t")
    (some ⟨ascii "t", 0, 0, 2, 0⟩) (List.prefix_refl countedPast)
  exact (Option.some.inj hanswer).symm

end ResourceMonitor

end McpToolkit
