import McpToolkit.Queue.Delivery
/-!
# Consumers that wait

`dequeue` waits on the condition variable as long as the queue is empty.  A consumer that
waits has given the lock back.  It is woken when `enqueue` notifies it, when its time is
up, or for no reason at all; then it has to get the lock and to look at the queue again,
and other threads may have been faster.  Seen from outside, all this is the queue whose
operations are one step each, and no wakeup is lost on the way.
-/

namespace McpToolkit

theorem RequestQueue.enqueue_cases (q : RequestQueue) (req : ToolRequest) :
    q.enqueue req = (false, q) ∨
      q.enqueue req = (true, { q with queue := q.queue ++ [req] }) := by
  unfold enqueue
  split_ifs
  · exact .inl rfl
  · exact .inr rfl

/-- The queue, the consumers that wait, and those that have been woken and have not had the
lock since. -/
structure WaitingQueue (θ : Type) where
  shared : RequestQueue := {}
  waiting : List θ := []
  woken : List θ := []

inductive ThreadEvent (θ : Type) where
  /-- A call gets the lock.  If it is an `enqueue` that succeeds, it notifies a consumer. -/
  | call (thread : θ) (c : QueueCall) (notified : Option θ)
  /-- A consumer wakes up because its time is up, or for no reason. -/
  | wake (thread : θ)
  /-- A consumer that has been woken gets the lock; its time may be up by then. -/
  | resume (thread : θ) (expired : Bool)

namespace WaitingQueue

variable {θ : Type}

/-- What a consumer does whenever it has the lock: it waits on, or leaves with what the
queue has for it. -/
def dequeueOrWait (s : WaitingQueue θ) (thread : θ) (expired : Bool) :
    Option QueueAnswer × WaitingQueue θ :=
  if s.shared.queue.isEmpty && !expired then (none, { s with waiting := thread :: s.waiting })
  else
    let (req, shared) := s.shared.dequeue
    (some (.dequeued req), { s with shared })

variable [DecidableEq θ]

def wake (s : WaitingQueue θ) (thread : θ) : WaitingQueue θ :=
  { s with waiting := s.waiting.erase thread, woken := thread :: s.woken }

/-- `cv_.notify_one`, which does nothing if no consumer waits. -/
def notifyOne (s : WaitingQueue θ) : Option θ → WaitingQueue θ
  | none => s
  | some thread => s.wake thread

/-- The answer of a call that returns, and the state. -/
def step (s : WaitingQueue θ) : ThreadEvent θ → Option QueueAnswer × WaitingQueue θ
  | .call thread .dequeue _ => s.dequeueOrWait thread false
  | .call _ (.enqueue req) notified =>
      let (accepted, shared) := s.shared.enqueue req
      let s := { s with shared }
      (some (.enqueued accepted), if accepted then s.notifyOne notified else s)
  | .call thread c _ =>
      let (answer, shared) := s.shared.step (thread, c)
      (some answer, { s with shared })
  | .wake thread => (none, s.wake thread)
  | .resume thread expired =>
      { s with woken := s.woken.erase thread }.dequeueOrWait thread expired

/-- The threads inside a `dequeue` that has not returned. -/
def blocked (s : WaitingQueue θ) : List θ := s.waiting ++ s.woken

/-- What can happen next.  A thread makes one call after the other, and whoever is notified
waits. -/
def Enabled (s : WaitingQueue θ) : ThreadEvent θ → Prop
  | .call thread _ notified => thread ∉ s.blocked ∧ (∀ u ∈ notified, u ∈ s.waiting) ∧
      (notified = none → s.waiting = [])
  | .wake thread => thread ∈ s.waiting
  | .resume thread _ => thread ∈ s.woken

/-- A record of what happened, with the answer if a call returned. -/
abbrev ThreadRecord (θ : Type) := ThreadEvent θ × Option QueueAnswer

/-- The runs of any number of threads. -/
abbrev ThreadRuns : List (ThreadRecord θ) → WaitingQueue θ → Prop :=
  Machine.Runs step (fun _ s e => s.Enabled e) {}

/-- A call that returns, as one step of the queue. -/
def returned : ThreadRecord θ → Option ((θ × QueueCall) × QueueAnswer)
  | (.call thread c _, some answer) => some ((thread, c), answer)
  | (.resume thread _, some answer) => some ((thread, .dequeue), answer)
  | _ => none

/-- The call of a thread, if the event is one. -/
def callBy (t : θ) : ThreadRecord θ → List QueueCall
  | (.call thread c _, _) => if thread = t then [c] else []
  | _ => []

/-- The call of a thread that returns, if the event makes one return. -/
def returnTo (t : θ) (e : ThreadRecord θ) : List QueueCall :=
  match returned e with
  | some ((thread, c), _) => if thread = t then [c] else []
  | none => []

/-- The call that a thread is inside of. -/
def pending (t : θ) (blocked : List θ) : List QueueCall := if t ∈ blocked then [.dequeue] else []

/-! ## One step -/

variable {s : WaitingQueue θ} {thread : θ}

section dequeue

omit [DecidableEq θ]

theorem dequeueOrWait_cases (s : WaitingQueue θ) (thread : θ) (expired : Bool) :
    (s.shared.queue = [] ∧ s.dequeueOrWait thread expired =
      (none, { s with waiting := thread :: s.waiting })) ∨
    s.dequeueOrWait thread expired =
      (some (.dequeued s.shared.dequeue.1), { s with shared := s.shared.dequeue.2 }) := by
  unfold dequeueOrWait
  by_cases hwait : (s.shared.queue.isEmpty && !expired) = true
  · rw [if_pos hwait]
    exact .inl ⟨List.isEmpty_iff.mp (Bool.and_eq_true_iff.mp hwait).1, rfl⟩
  · rw [if_neg hwait]
    exact .inr rfl

/-- A consumer that has the lock does not wait if there is a request. -/
theorem dequeueOrWait_request {req : ToolRequest} {rest : List ToolRequest}
    (h : s.shared.queue = req :: rest) (thread : θ) (expired : Bool) :
    s.dequeueOrWait thread expired =
      (some (.dequeued (some req)), { s with shared := { s.shared with queue := rest } }) := by
  rw [dequeueOrWait, h, RequestQueue.dequeue, h]
  rfl

end dequeue

/-- What an event does. -/
inductive Moves (s : WaitingQueue θ) : ThreadRecord θ → WaitingQueue θ → Prop where
  | blocks {thread : θ} {notified : Option θ} : s.shared.queue = [] →
      Moves s (.call thread .dequeue notified, none) { s with waiting := thread :: s.waiting }
  | notifies {thread : θ} {req : ToolRequest} {notified : Option θ} {shared : RequestQueue} :
      s.shared.step (thread, .enqueue req) = (.enqueued true, shared) →
      shared.queue = s.shared.queue ++ [req] →
      Moves s (.call thread (.enqueue req) notified, some (.enqueued true))
        ({ s with shared }.notifyOne notified)
  | returns {thread : θ} {c : QueueCall} {notified : Option θ} {answer : QueueAnswer}
      {shared : RequestQueue} : s.shared.step (thread, c) = (answer, shared) →
      shared.queue.length ≤ s.shared.queue.length →
      Moves s (.call thread c notified, some answer) { s with shared }
  | wakes {thread : θ} : Moves s (.wake thread, none) (s.wake thread)
  | waits {thread : θ} {expired : Bool} : s.shared.queue = [] →
      Moves s (.resume thread expired, none)
        { s with waiting := thread :: s.waiting, woken := s.woken.erase thread }
  | leaves {thread : θ} {expired : Bool} {answer : QueueAnswer} {shared : RequestQueue} :
      s.shared.step (thread, .dequeue) = (answer, shared) →
      shared.queue.length ≤ s.shared.queue.length - 1 →
      Moves s (.resume thread expired, some answer)
        { s with shared, woken := s.woken.erase thread }

theorem length_dequeue (q : RequestQueue) : q.dequeue.2.queue.length ≤ q.queue.length - 1 := by
  unfold RequestQueue.dequeue
  cases hqueue : q.queue with
  | nil => exact Nat.le_of_eq (congrArg List.length hqueue)
  | cons req rest => exact Nat.le_refl _

theorem moves_step (s : WaitingQueue θ) (e : ThreadEvent θ) :
    s.Moves (e, (s.step e).1) (s.step e).2 := by
  cases e with
  | call thread c notified =>
      cases c with
      | dequeue =>
          rw [step]
          obtain ⟨hempty, hwaits⟩ | hleaves := s.dequeueOrWait_cases thread false
          · rw [hwaits]
            exact .blocks hempty
          · rw [hleaves]
            exact .returns rfl ((length_dequeue _).trans (Nat.sub_le _ _))
      | enqueue req =>
          have hanswer : s.shared.step (thread, .enqueue req) =
            (.enqueued (s.shared.enqueue req).1, (s.shared.enqueue req).2) := rfl
          rw [step]
          obtain hrefused | haccepted := s.shared.enqueue_cases req
          · rw [hrefused] at hanswer ⊢
            exact .returns hanswer (Nat.le_refl _)
          · rw [haccepted] at hanswer ⊢
            exact .notifies hanswer rfl
      | size => exact .returns rfl (Nat.le_refl _)
      | isFull => exact .returns rfl (Nat.le_refl _)
      | setMaxSize max => exact .returns rfl (Nat.le_refl _)
      | getMaxSize => exact .returns rfl (Nat.le_refl _)
      | clear =>
          apply Moves.returns rfl
          change s.shared.clear.2.queue.length ≤ _
          rw [RequestQueue.clear_eq]
          exact Nat.zero_le _
  | wake thread => exact .wakes
  | resume thread expired =>
      rw [step]
      obtain ⟨hempty, hwaits⟩ | hleaves :=
        dequeueOrWait_cases { s with woken := s.woken.erase thread } thread expired
      · rw [hwaits]
        exact .waits hempty
      · rw [hleaves]
        exact .leaves rfl (length_dequeue _)

variable {e : ThreadRecord θ} {s' : WaitingQueue θ}

theorem Moves.shown {i : θ × QueueCall} {answer : QueueAnswer} (hmoves : s.Moves e s')
    (h : returned e = some (i, answer)) : s.shared.step i = (answer, s'.shared) := by
  cases hmoves with
  | blocks hempty => cases h
  | @notifies thread req notified shared hstep hqueue =>
      cases h
      rw [hstep]
      cases notified <;> rfl
  | returns hstep hlength => cases h; exact hstep
  | wakes => cases h
  | waits hempty => cases h
  | leaves hstep hlength => cases h; exact hstep

theorem Moves.hidden (hmoves : s.Moves e s') (h : returned e = none) : s'.shared = s.shared := by
  cases hmoves with
  | blocks hempty => rfl
  | notifies hstep hqueue => cases h
  | returns hstep hlength => cases h
  | wakes => rfl
  | waits hempty => rfl
  | leaves hstep hlength => cases h

/-! ## Wakeups -/

/-- If a consumer waits, there are at least as many woken ones as requests. -/
def Covered (s : WaitingQueue θ) : Prop :=
  s.waiting ≠ [] → s.shared.queue.length ≤ s.woken.length

theorem Moves.covered (hmoves : s.Moves e s') (henabled : s.Enabled e.1) (h : s.Covered) :
    s'.Covered := by
  cases hmoves with
  | blocks hempty =>
      intro _
      rw [hempty]
      exact Nat.zero_le _
  | @notifies thread req notified shared hstep hqueue =>
      obtain ⟨-, hnotified, hnone⟩ := henabled
      cases notified with
      | none => exact fun hwaiting => absurd (hnone rfl) hwaiting
      | some u =>
          intro _
          have hlength := h (List.ne_nil_of_mem (hnotified u rfl))
          simp only [notifyOne, wake, hqueue, List.length_append, List.length_cons, List.length_nil]
          omega
  | returns hstep hlength => exact fun hwaiting => hlength.trans (h hwaiting)
  | @wakes thread =>
      intro _
      exact (h (List.ne_nil_of_mem henabled)).trans (Nat.le_succ _)
  | waits hempty =>
      intro _
      rw [hempty]
      exact Nat.zero_le _
  | @leaves thread expired answer shared hstep hlength =>
      intro hwaiting
      have hmem : thread ∈ s.woken := henabled
      have hcovered := h hwaiting
      rw [List.length_erase_of_mem hmem]
      dsimp only
      omega

theorem covered_of_runs {past : List (ThreadRecord θ)} (h : ThreadRuns past s) : s.Covered :=
  h.invariant (I := fun _ s => s.Covered) (fun hwaiting => absurd rfl hwaiting)
    fun _ s e hcovered henabled => (s.moves_step e).covered henabled hcovered

/-- Each woken consumer gets the lock, in some order. -/
def takeTurns (s : WaitingQueue θ) (turns : List (θ × Bool)) : WaitingQueue θ :=
  turns.foldl (fun s turn => (s.step (.resume turn.1 turn.2)).2) s

theorem woken_resume (s : WaitingQueue θ) (thread : θ) (expired : Bool) :
    (s.step (.resume thread expired)).2.woken = s.woken.erase thread := by
  rw [step]
  obtain ⟨-, hwaits⟩ | hleaves :=
    dequeueOrWait_cases { s with woken := s.woken.erase thread } thread expired
  · rw [hwaits]
  · rw [hleaves]

theorem settles {past : List (ThreadRecord θ)} (h : ThreadRuns past s) {turns : List (θ × Bool)}
    (hall : (turns.map (·.1)).Perm s.woken) :
    (s.takeTurns turns).waiting = [] ∨ (s.takeTurns turns).shared.queue = [] := by
  induction turns generalizing s past with
  | nil =>
      have hwoken : s.woken = [] := hall.nil_eq.symm
      by_cases hwaiting : s.waiting = []
      · exact .inl hwaiting
      · have hcovered := covered_of_runs h hwaiting
        rw [hwoken, List.length_nil, Nat.le_zero, List.length_eq_zero_iff] at hcovered
        exact .inr hcovered
  | cons turn turns ih =>
      obtain ⟨hmem, hrest⟩ := List.cons_perm_iff_perm_erase.mp hall
      have henabled : s.Enabled (.resume turn.1 turn.2) := hmem
      apply ih (h.next _ henabled)
      rw [woken_resume]
      exact hrest

/-- In every run of any threads, no request is left in the queue for consumers that wait:
there are as many woken consumers as requests, whoever of them gets the lock takes the
first request, and when all have had it, nobody waits or the queue is empty. -/
theorem no_lost_wakeup {past : List (ThreadRecord θ)} (h : ThreadRuns past s) :
    (s.waiting ≠ [] → s.shared.queue.length ≤ s.woken.length) ∧
      (∀ req rest, s.shared.queue = req :: rest → ∀ thread expired,
        (s.step (.resume thread expired)).1 = some (.dequeued (some req))) ∧
      ∀ turns : List (θ × Bool), (turns.map (·.1)).Perm s.woken →
        (s.takeTurns turns).waiting = [] ∨ (s.takeTurns turns).shared.queue = [] := by
  refine ⟨covered_of_runs h, fun req rest hqueue thread expired => ?_, fun turns => settles h⟩
  rw [step, dequeueOrWait_request (s := { s with woken := s.woken.erase thread }) hqueue]

/-- Two consumers wait, and a producer notifies one of them. -/
def notifiedPast : List (ThreadRecord Nat) :=
  [(.call 1 .dequeue none, none), (.call 2 .dequeue (some 1), none),
    (.call 0 (.enqueue ⟨ascii "a", [], []⟩) (some 1), some (.enqueued true))]

theorem runs_notifiedPast :
    ThreadRuns notifiedPast ⟨{ queue := [⟨ascii "a", [], []⟩] }, [2], [1]⟩ := by
  have hfirst : ThreadRuns [(.call 1 .dequeue none, none)] ⟨{}, [1], []⟩ :=
    Machine.Runs.start.extend ⟨List.not_mem_nil, by simp, fun _ => rfl⟩ rfl
  have hsecond : ThreadRuns (notifiedPast.take 2) ⟨{}, [2, 1], []⟩ :=
    hfirst.extend ⟨by decide, by simp, by simp⟩ rfl
  exact hsecond.extend ⟨by decide, by simp, by simp⟩ rfl

theorem no_lost_wakeup_of_notified :
    (takeTurns ⟨{ queue := [⟨ascii "a", [], []⟩] }, [2], [1]⟩ [(1, true)]).shared.queue = [] := by
  have hsettled := (no_lost_wakeup runs_notifiedPast).2.2 [(1, true)] (.refl _)
  exact hsettled.resolve_left (by decide)

/-! ## Calls and returns -/

theorem wake_blocked (h : thread ∈ s.waiting) : (s.wake thread).blocked.Perm s.blocked :=
  List.perm_middle.trans ((List.perm_cons_erase h).symm.append_right s.woken)

theorem notifyOne_blocked {notified : Option θ} (h : ∀ u ∈ notified, u ∈ s.waiting) :
    (s.notifyOne notified).blocked.Perm s.blocked := by
  cases notified with
  | none => exact .refl _
  | some u => exact wake_blocked (h u rfl)

theorem resume_blocked (h : thread ∈ s.woken) :
    s.blocked.Perm (thread :: (s.waiting ++ s.woken.erase thread)) :=
  ((List.perm_cons_erase h).append_left s.waiting).trans List.perm_middle

section pending

variable {blocked blocked' : List θ}

theorem pending_congr (h : blocked'.Perm blocked) (t : θ) :
    pending t blocked' = pending t blocked := by
  simp only [pending, h.mem_iff]

theorem pending_cons (hfree : thread ∉ blocked) (h : blocked'.Perm (thread :: blocked)) (t : θ) :
    pending t blocked' = (if thread = t then [.dequeue] else []) ++ pending t blocked := by
  simp only [pending, h.mem_iff, List.mem_cons]
  by_cases ht : thread = t
  · subst ht
    rw [if_pos (.inl rfl), if_pos rfl, if_neg hfree]
    rfl
  · rw [if_neg ht, List.nil_append]
    simp only [Ne.symm ht, false_or]

/-- The call of a thread that is inside of none. -/
theorem pending_append (hfree : thread ∉ blocked) (c : QueueCall) (t : θ) :
    pending t blocked ++ (if thread = t then [c] else []) =
      (if thread = t then [c] else []) ++ pending t blocked := by
  by_cases ht : thread = t
  · subst ht
    rw [pending, if_neg hfree, List.nil_append, List.append_nil]
  · rw [if_neg ht, List.nil_append, List.append_nil]

end pending

/-- What is pending and what is called then has returned or is pending after the event. -/
theorem Moves.pending_eq (hmoves : s.Moves e s') (henabled : s.Enabled e.1)
    (hnodup : s.blocked.Nodup) (t : θ) :
    pending t s.blocked ++ callBy t e = returnTo t e ++ pending t s'.blocked := by
  cases hmoves with
  | blocks hempty =>
      exact (pending_append henabled.1 .dequeue t).trans
        (pending_cons henabled.1 (.refl _) t).symm
  | @notifies thread req notified shared hstep hqueue =>
      rw [pending_congr (notifyOne_blocked (s := { s with shared }) henabled.2.1)]
      exact pending_append henabled.1 (.enqueue req) t
  | @returns thread c notified answer shared hstep hlength =>
      exact pending_append henabled.1 c t
  | wakes =>
      rw [pending_congr (wake_blocked henabled)]
      exact List.append_nil _
  | waits hempty =>
      exact (List.append_nil _).trans (pending_congr (resume_blocked henabled) t)
  | leaves hstep hlength =>
      have hperm := resume_blocked henabled
      have hfree := (List.nodup_cons.mp (hperm.nodup_iff.mp hnodup)).1
      exact (List.append_nil _).trans (pending_cons hfree hperm t)

theorem Moves.nodup (hmoves : s.Moves e s') (henabled : s.Enabled e.1)
    (hnodup : s.blocked.Nodup) : s'.blocked.Nodup := by
  cases hmoves with
  | blocks hempty => exact List.nodup_cons.mpr ⟨henabled.1, hnodup⟩
  | @notifies thread req notified shared hstep hqueue =>
      exact (notifyOne_blocked (s := { s with shared }) henabled.2.1).nodup_iff.mpr hnodup
  | returns hstep hlength => exact hnodup
  | wakes => exact (wake_blocked henabled).nodup_iff.mpr hnodup
  | waits hempty => exact (resume_blocked henabled).nodup_iff.mp hnodup
  | leaves hstep hlength =>
      exact (List.nodup_cons.mp ((resume_blocked henabled).nodup_iff.mp hnodup)).2

variable {past : List (ThreadRecord θ)}

theorem pending_of_runs (h : ThreadRuns past s) : s.blocked.Nodup ∧
    ∀ t, past.flatMap (callBy t) = past.flatMap (returnTo t) ++ pending t s.blocked := by
  apply h.invariant (I := fun past (s : WaitingQueue θ) => s.blocked.Nodup ∧
    ∀ t, past.flatMap (callBy t) = past.flatMap (returnTo t) ++ pending t s.blocked)
  · exact ⟨List.nodup_nil, fun t => rfl⟩
  · rintro past s e ⟨hnodup, hcalls⟩ henabled
    have hmoves := s.moves_step e
    refine ⟨hmoves.nodup henabled hnodup, fun t => ?_⟩
    calc (past ++ [(e, (s.step e).1)]).flatMap (callBy t)
        = past.flatMap (callBy t) ++ callBy t (e, (s.step e).1) := by
          rw [List.flatMap_append, List.flatMap_singleton]
      _ = past.flatMap (returnTo t) ++
            (pending t s.blocked ++ callBy t (e, (s.step e).1)) := by
          rw [hcalls, List.append_assoc]
      _ = past.flatMap (returnTo t) ++ returnTo t (e, (s.step e).1) ++
            pending t (s.step e).2.blocked := by
          rw [hmoves.pending_eq henabled hnodup, List.append_assoc]
      _ = (past ++ [(e, (s.step e).1)]).flatMap (returnTo t) ++
            pending t (s.step e).2.blocked := by
          rw [List.flatMap_append, List.flatMap_singleton]

/-- With consumers that wait, wake up and wait again, the calls that return are a run of the
queue whose operations are one step each, in the order in which they return and with the
same answers, and the queue is the same.  Every thread gets an answer to each of its
calls, in their order, but to a `dequeue` that it is still inside of. -/
theorem refines_queue (h : ThreadRuns past s) :
    Machine.FreeRuns RequestQueue.step {} (past.filterMap returned) s.shared ∧
      ∀ t, past.flatMap (callBy t) = past.flatMap (returnTo t) ++ pending t s.blocked :=
  ⟨h.refines returned shared rfl (fun s e _ _ => (s.moves_step e).shown)
    (fun s e => (s.moves_step e).hidden), (pending_of_runs h).2⟩

theorem refines_queue_of_notified :
    Machine.FreeRuns RequestQueue.step {}
      [((0, .enqueue ⟨ascii "a", [], []⟩), .enqueued true)]
      { queue := [⟨ascii "a", [], []⟩] } ∧
    notifiedPast.flatMap (callBy 2) = [.dequeue] := by
  obtain ⟨hrun, hcalls⟩ := refines_queue runs_notifiedPast
  exact ⟨hrun, hcalls 2⟩

end WaitingQueue

end McpToolkit
