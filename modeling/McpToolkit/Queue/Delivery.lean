import McpToolkit.Base.Bytes
import McpToolkit.Base.Runs
import Mathlib.Order.Bounds.Basic
/-!
# The request queue

`RequestQueue`, whose operations hold its lock, so that each is one step of a run.
Producers and consumers are threads that call in any order.  What was accepted is what
was removed, by consumers or by `clear`, followed by what is still there, and the queue
keeps within the maxima that have been in force since it was last empty.
-/

namespace McpToolkit

structure ToolRequest where
  toolName : Bytes := []
  argsJson : Bytes := []
  clientId : Bytes := []
  deriving Repr, DecidableEq

structure RequestQueue where
  queue : List ToolRequest := []
  maxSize : Nat := 1000
  deriving Repr, DecidableEq

inductive QueueCall where
  | enqueue (req : ToolRequest)
  | dequeue
  | size
  | isFull
  | setMaxSize (max : Nat)
  | getMaxSize
  | clear
  deriving Repr, DecidableEq

/-- What a call returns.  A `clear` returns nothing; what it popped is kept for the record. -/
inductive QueueAnswer where
  | enqueued (accepted : Bool)
  /-- A request, or none if the time was up first. -/
  | dequeued (req : Option ToolRequest)
  | size (n : Nat)
  | full (b : Bool)
  | done
  | cleared (popped : List ToolRequest)
  deriving Repr, DecidableEq

namespace RequestQueue

def size (q : RequestQueue) : Nat := q.queue.length

def isFull (q : RequestQueue) : Bool := q.queue.length ≥ q.maxSize

def enqueue (q : RequestQueue) (req : ToolRequest) : Bool × RequestQueue :=
  if q.queue.length ≥ q.maxSize then (false, q)
  else (true, { q with queue := q.queue ++ [req] })

/-- The wait ends with a request in the queue, or with an empty queue when the time is up. -/
def dequeue (q : RequestQueue) : Option ToolRequest × RequestQueue :=
  match q.queue with
  | [] => (none, q)
  | req :: rest => (some req, { q with queue := rest })

def setMaxSize (q : RequestQueue) (max : Nat) : RequestQueue := { q with maxSize := max }

def getMaxSize (q : RequestQueue) : Nat := q.maxSize

/-- The loop of `clear`, with the requests that it has popped. -/
def popAll : List ToolRequest → List ToolRequest → List ToolRequest × List ToolRequest
  | popped, [] => (popped, [])
  | popped, req :: rest => popAll (popped ++ [req]) rest

def clear (q : RequestQueue) : List ToolRequest × RequestQueue :=
  let (popped, rest) := popAll [] q.queue
  (popped, { q with queue := rest })

/-- A call from some thread. -/
def step {θ : Type} (q : RequestQueue) (call : θ × QueueCall) : QueueAnswer × RequestQueue :=
  match call.2 with
  | .enqueue req => let (accepted, q') := q.enqueue req; (.enqueued accepted, q')
  | .dequeue => let (req, q') := q.dequeue; (.dequeued req, q')
  | .size => (.size q.size, q)
  | .isFull => (.full q.isFull, q)
  | .setMaxSize max => (.done, q.setMaxSize max)
  | .getMaxSize => (.size q.getMaxSize, q)
  | .clear => let (popped, q') := q.clear; (.cleared popped, q')

/-! ## Histories -/

section histories

variable {θ : Type}

/-- The request of a call that was accepted. -/
def acceptedBy : (θ × QueueCall) × QueueAnswer → List ToolRequest
  | ((_, .enqueue req), .enqueued true) => [req]
  | _ => []

/-- The requests that a call removed. -/
def removedBy : (θ × QueueCall) × QueueAnswer → List ToolRequest
  | (_, .dequeued (some req)) => [req]
  | (_, .cleared popped) => popped
  | _ => []

/-- The requests for which `enqueue` has returned true. -/
def accepted (past : List ((θ × QueueCall) × QueueAnswer)) : List ToolRequest :=
  past.flatMap acceptedBy

/-- The requests that have been removed, in this order. -/
def removed (past : List ((θ × QueueCall) × QueueAnswer)) : List ToolRequest :=
  past.flatMap removedBy

/-- The maxima that have been in force since the queue was last empty. -/
def maximaInForce (past : List ((θ × QueueCall) × QueueAnswer)) : Set Nat :=
  {m | ∃ q, Machine.Since step {} (fun q => q.queue = []) past q ∧ q.maxSize = m}

/-- The maximum that was set last. -/
def latestMaximum (past : List ((θ × QueueCall) × QueueAnswer)) : Nat :=
  past.foldl (fun latest e =>
    match e.1.2 with
    | .setMaxSize max => max
    | _ => latest) 1000

end histories

/-! ## One step -/

variable {θ : Type} {q : RequestQueue}

theorem popAll_eq (popped queue : List ToolRequest) :
    popAll popped queue = (popped ++ queue, []) := by
  induction queue generalizing popped with
  | nil => rw [popAll, List.append_nil]
  | cons req rest ih => rw [popAll, ih, List.append_assoc, List.singleton_append]

theorem clear_eq (q : RequestQueue) : q.clear = (q.queue, { q with queue := [] }) := by
  rw [clear, popAll_eq]
  rfl

/-- A call adds its request behind the queue, which has room, or accepts nothing and removes
what it removes from the front. -/
theorem step_cases (q : RequestQueue) (call : θ × QueueCall) :
    (∃ thread req, call = (thread, .enqueue req) ∧ q.queue.length < q.maxSize ∧
      q.step call = (.enqueued true, { q with queue := q.queue ++ [req] })) ∨
    (acceptedBy (call, (q.step call).1) = [] ∧
      q.queue = removedBy (call, (q.step call).1) ++ (q.step call).2.queue) := by
  obtain ⟨thread, c⟩ := call
  cases c with
  | enqueue req =>
      by_cases hfull : q.queue.length ≥ q.maxSize
      · have hstep : q.step (thread, .enqueue req) = (.enqueued false, q) := by
          simp [step, enqueue, hfull]
        rw [hstep]
        exact .inr ⟨rfl, rfl⟩
      · refine .inl ⟨thread, req, rfl, by omega, ?_⟩
        simp [step, enqueue, hfull]
  | dequeue =>
      rw [step, dequeue]
      cases hqueue : q.queue with
      | nil => exact .inr ⟨rfl, hqueue.symm⟩
      | cons req rest => exact .inr ⟨rfl, rfl⟩
  | size => exact .inr ⟨rfl, rfl⟩
  | isFull => exact .inr ⟨rfl, rfl⟩
  | setMaxSize max => exact .inr ⟨rfl, rfl⟩
  | getMaxSize => exact .inr ⟨rfl, rfl⟩
  | clear =>
      rw [step, clear_eq]
      exact .inr ⟨rfl, (List.append_nil _).symm⟩

theorem step_queue (q : RequestQueue) (call : θ × QueueCall) :
    q.queue ++ acceptedBy (call, (q.step call).1) =
      removedBy (call, (q.step call).1) ++ (q.step call).2.queue := by
  obtain ⟨thread, req, rfl, -, hstep⟩ | ⟨hnone, hqueue⟩ := step_cases q call
  · rw [hstep]
    rfl
  · rw [hnone, List.append_nil]
    exact hqueue

/-- The queue grows no further than to the maximum. -/
theorem length_step_le (q : RequestQueue) (call : θ × QueueCall) :
    (q.step call).2.queue.length ≤ max q.queue.length (q.step call).2.maxSize := by
  obtain ⟨thread, req, rfl, hroom, hstep⟩ | ⟨-, hqueue⟩ := step_cases q call
  · rw [hstep]
    simp only [List.length_append, List.length_singleton]
    omega
  · have hlen := congrArg List.length hqueue
    rw [List.length_append] at hlen
    omega

theorem room_of_enqueued {thread : θ} {req : ToolRequest}
    (h : (q.step (thread, .enqueue req)).1 = .enqueued true) : q.queue.length < q.maxSize := by
  obtain ⟨thread', req', heq, hroom, -⟩ | ⟨hnone, -⟩ := step_cases q (thread, .enqueue req)
  · exact hroom
  · rw [h] at hnone
    cases hnone

theorem maxSize_step (q : RequestQueue) (call : θ × QueueCall) : (q.step call).2.maxSize =
    match call.2 with
    | .setMaxSize max => max
    | _ => q.maxSize := by
  obtain ⟨thread, call⟩ := call
  cases call with
  | enqueue req =>
      simp only [step, enqueue]
      split_ifs <;> rfl
  | dequeue =>
      simp only [step, dequeue]
      split <;> rfl
  | clear => rfl
  | size => rfl
  | isFull => rfl
  | setMaxSize max => rfl
  | getMaxSize => rfl

/-! ## Runs -/

variable {past : List ((θ × QueueCall) × QueueAnswer)}

theorem accepted_eq (h : Machine.FreeRuns step {} past q) :
    accepted past = removed past ++ q.queue := by
  induction h with
  | start => rfl
  | next call _ _ ih =>
      rw [accepted, removed, List.flatMap_append, List.flatMap_append, List.flatMap_singleton,
        List.flatMap_singleton, ← accepted, ← removed, ih, List.append_assoc, step_queue,
        List.append_assoc]

/-- A step puts its maximum in force, and the others remain if the queue is not empty. -/
theorem mem_maximaInForce_concat {e : (θ × QueueCall) × QueueAnswer} {m : Nat}
    (h : Machine.FreeRuns step {} (past ++ [e]) q) :
    m ∈ maximaInForce (past ++ [e]) ↔ m = q.maxSize ∨ q.queue ≠ [] ∧ m ∈ maximaInForce past := by
  constructor
  · rintro ⟨q₁, hsince, rfl⟩
    rcases (Machine.since_concat h).mp hsince with rfl | ⟨hne, hsince⟩
    · exact .inl rfl
    · exact .inr ⟨hne, q₁, hsince, rfl⟩
  · rintro (rfl | ⟨hne, q₁, hsince, rfl⟩)
    · exact ⟨q, (Machine.since_concat h).mpr (.inl rfl), rfl⟩
    · exact ⟨q₁, (Machine.since_concat h).mpr (.inr ⟨hne, hsince⟩), rfl⟩

theorem maxSize_eq (h : Machine.FreeRuns step {} past q) : q.maxSize = latestMaximum past := by
  induction h with
  | start => rfl
  | @next past q call _ _ ih =>
      rw [latestMaximum, List.foldl_append, ← latestMaximum, ← ih]
      exact maxSize_step q call

/-- In force are the maxima that calls have set, as long as something was in the queue ever
since: more was accepted than removed. -/
theorem mem_maximaInForce_iff {m : Nat} (h : Machine.FreeRuns step {} past q) :
    m ∈ maximaInForce past ↔ ∃ before since, past = before ++ since ∧ latestMaximum before = m ∧
      ∀ mid rest, since = mid ++ rest → mid ≠ [] →
        accepted (before ++ mid) ≠ removed (before ++ mid) := by
  have hqueue : ∀ {past : List ((θ × QueueCall) × QueueAnswer)} {q : RequestQueue},
      Machine.FreeRuns step {} past q → (q.queue = [] ↔ accepted past = removed past) := by
    intro past q hrun
    rw [accepted_eq hrun, List.append_right_eq_self]
  constructor
  · rintro ⟨q₁, ⟨before, since, rfl, hrun, hsince⟩, rfl⟩
    refine ⟨before, since, rfl, (maxSize_eq hrun).symm, fun mid rest hmid hne hequal => ?_⟩
    rw [hmid, ← List.append_assoc] at h
    obtain ⟨q', hrun'⟩ := h.of_append
    exact hsince mid rest q' hmid hne hrun' ((hqueue hrun').mpr hequal)
  · rintro ⟨before, since, rfl, rfl, hsince⟩
    obtain ⟨q₁, hrun⟩ := h.of_append
    refine ⟨q₁, ⟨before, since, rfl, hrun, fun mid rest q' hmid hne hrun' hempty => ?_⟩,
      maxSize_eq hrun⟩
    exact hsince mid rest hmid hne ((hqueue hrun').mp hempty)

/-- One of the maxima in force is the largest, and the queue keeps within it. -/
theorem length_le_maximum (h : Machine.FreeRuns step {} past q) :
    ∃ largest, IsGreatest (maximaInForce past) largest ∧ q.queue.length ≤ largest := by
  induction h with
  | start =>
      refine ⟨1000, ⟨⟨{}, Machine.since_nil.mpr rfl, rfl⟩, ?_⟩, Nat.zero_le _⟩
      rintro m ⟨q, hq, rfl⟩
      rw [Machine.since_nil.mp hq]
  | @next past q call hrun hallows ih =>
      obtain ⟨largest, ⟨hmem, hgreatest⟩, hlen⟩ := ih
      have hmaxima := fun m => mem_maximaInForce_concat (m := m) (hrun.next call hallows)
      have hstep := length_step_le q call
      by_cases hempty : (q.step call).2.queue = []
      · refine ⟨(q.step call).2.maxSize, ⟨(hmaxima _).mpr (.inl rfl), fun m hm => ?_⟩, ?_⟩
        · rcases (hmaxima m).mp hm with rfl | ⟨hne, -⟩
          · exact le_rfl
          · exact absurd hempty hne
        · rw [hempty]
          exact Nat.zero_le _
      · refine ⟨max largest (q.step call).2.maxSize, ⟨(hmaxima _).mpr ?_, fun m hm => ?_⟩, ?_⟩
        · rcases le_total (q.step call).2.maxSize largest with hle | hle
          · rw [max_eq_left hle]
            exact .inr ⟨hempty, hmem⟩
          · exact .inl (max_eq_right hle)
        · rcases (hmaxima m).mp hm with rfl | ⟨-, hm⟩
          · exact le_max_right _ _
          · exact (hgreatest hm).trans (le_max_left _ _)
        · omega

/-- An enqueue that was accepted found room. -/
theorem room_of_run {before : List ((θ × QueueCall) × QueueAnswer)} {thread : θ}
    {req : ToolRequest} {q₁ : RequestQueue} (h : Machine.FreeRuns step {} past q)
    (hbegins : before ++ [((thread, .enqueue req), .enqueued true)] <+: past)
    (hrun : Machine.FreeRuns step {} before q₁) : q₁.queue.length < q₁.maxSize := by
  obtain ⟨q₂, hrun₂, -, hanswer⟩ := h.step_of_prefix hbegins
  rw [hrun.unique hrun₂]
  exact room_of_enqueued hanswer.symm

/-- In every run of any threads, what was accepted is what was removed, followed by what is
in the queue; the queue is no longer than the largest maximum that has been in force since it
was last empty; and nothing is accepted without room. -/
theorem queue_delivers {θ : Type} {past : List ((θ × QueueCall) × QueueAnswer)}
    {q : RequestQueue} (h : Machine.FreeRuns step {} past q) :
    accepted past = removed past ++ q.queue ∧
      (∃ largest, IsGreatest (maximaInForce past) largest ∧ q.queue.length ≤ largest) ∧
      ∀ before thread req q₁,
        before ++ [((thread, .enqueue req), .enqueued true)] <+: past →
          Machine.FreeRuns step {} before q₁ → q₁.queue.length < q₁.maxSize :=
  ⟨accepted_eq h, length_le_maximum h, fun _ _ _ _ => room_of_run h⟩

/-- Two producers, a maximum that is lowered below what is queued, and a consumer. -/
def twoProducers : List (Nat × QueueCall) :=
  [(0, .enqueue ⟨ascii "a", [], []⟩), (1, .enqueue ⟨ascii "b", [], []⟩), (2, .setMaxSize 1),
    (0, .enqueue ⟨ascii "c", [], []⟩), (2, .dequeue)]

theorem queue_delivers_of_twoProducers :
    accepted (Machine.records step {} twoProducers) =
        [⟨ascii "a", [], []⟩, ⟨ascii "b", [], []⟩] ∧
      removed (Machine.records step {} twoProducers) = [⟨ascii "a", [], []⟩] := by
  have hstart : Machine.FreeRuns step {} ([] : List ((Nat × QueueCall) × QueueAnswer)) {} := .start
  have hrun := hstart.records twoProducers
  have hremoved : removed (Machine.records step {} twoProducers) = [⟨ascii "a", [], []⟩] := by
    decide
  have hqueue : (twoProducers.foldl (fun (q : RequestQueue) call => (q.step call).2) {}).queue =
      [⟨ascii "b", [], []⟩] := by decide
  have haccepted := (queue_delivers hrun).1
  rw [List.nil_append, hremoved, hqueue] at haccepted
  exact ⟨haccepted, hremoved⟩

end RequestQueue

end McpToolkit
