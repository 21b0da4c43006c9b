import McpToolkit.Adapter.Provenance
import McpToolkit.Execution.Guard
import McpToolkit.Json.Document
/-!
# The log of executions

What guards write to the log, in whatever order they start and complete.  Each entry is a
line of its own as long as no name has a newline, and the entries can be told from the
lines as long as no name has what separates the fields.
-/

namespace McpToolkit

open MCPAdapter

/-! ## Entries -/

structure Outcome where
  timedOut : Bool
  success : Bool
  resultSize : Nat
  deriving Repr, DecidableEq

/-- An execution that has started, or one that is completed with an outcome. -/
structure AuditEntry where
  timestamp : Bytes
  toolName : Bytes
  userId : Bytes
  outcome : Option Outcome
  deriving Repr, DecidableEq

namespace AuditEntry

def timedOut? (e : AuditEntry) : Option Bool := e.outcome.map Outcome.timedOut

def category : Option Outcome → SecurityEventCategory
  | none => .dispatchError
  | some o =>
      if o.timedOut then .timeout else if o.success then .dispatchError else .validationError

/-- What has been done, a completion being in time or not. -/
def action : Option Bool → Bytes
  | none => ascii "Tool execution started: "
  | some true => ascii "Tool execution timeout: "
  | some false => ascii "Tool execution completed: "

def details : Option Outcome → Bytes
  | none => []
  | some o => ascii ",success=" ++ (if o.success then ascii "true" else ascii "false") ++
      ascii ",result_size=" ++ decimal o.resultSize

/-- The line of an entry. -/
def line (e : AuditEntry) : Bytes :=
  ascii "[" ++ e.timestamp ++ ascii "] SECURITY | " ++ categoryToString (category e.outcome) ++
    ascii " | " ++ action e.timedOut? ++ e.toolName ++ ascii " | user=" ++ e.userId ++
    ascii ",tool=" ++ e.toolName ++ details e.outcome

end AuditEntry

/-- What is logged of a guard: its construction, or a call of `log_completion`. -/
inductive GuardCall where
  | start (timestamp : Bytes)
  | complete (now : Int) (timestamp : Bytes) (success : Bool) (result : Bytes)
  deriving Repr, DecidableEq

namespace ToolExecutionGuard

def written (g : ToolExecutionGuard) : GuardCall → Bytes
  | .start timestamp => (new g.toolName g.userId g.config g.timeoutGuard.startTime g.startTime
      timestamp).2
  | .complete now timestamp success result => g.logCompletion now timestamp success result

/-- What is to be logged, if anything is. -/
def entry (g : ToolExecutionGuard) : GuardCall → Option AuditEntry
  | .start timestamp =>
      if g.config.logInvocation then some ⟨timestamp, g.toolName, g.userId, none⟩ else none
  | .complete now timestamp success result =>
      if g.config.logResult then
        some ⟨timestamp, g.toolName, g.userId, some ⟨g.isTimeout now, success, result.length⟩⟩
      else none

end ToolExecutionGuard

/-- The calls of any guards, in the order in which they are made. -/
abbrev GuardCalls := List (ToolExecutionGuard × GuardCall)

def auditLog (calls : GuardCalls) : Bytes := calls.flatMap fun c => c.1.written c.2

def auditEntries (calls : GuardCalls) : List AuditEntry := calls.filterMap fun c => c.1.entry c.2

theorem logSecurityEvent_eq (e : AuditEntry) :
    logSecurityEvent e.timestamp (AuditEntry.category e.outcome)
      (AuditEntry.action e.timedOut? ++ e.toolName)
      (ascii "user=" ++ e.userId ++ ascii ",tool=" ++ e.toolName ++ AuditEntry.details e.outcome) =
      e.line ++ [newline] := by
  have hcontext : (ascii "user=" ++ e.userId ++ ascii ",tool=" ++ e.toolName ++
      AuditEntry.details e.outcome).isEmpty = false := rfl
  have huser : ascii " | user=" = ascii " | " ++ ascii "user=" := by decide
  rw [logSecurityEvent, hcontext, if_neg Bool.false_ne_true, AuditEntry.line, huser]
  simp only [List.append_assoc]

namespace ToolExecutionGuard

theorem written_eq (g : ToolExecutionGuard) (c : GuardCall) :
    g.written c = ((g.entry c).map fun e => e.line ++ [newline]).getD [] := by
  cases c with
  | start timestamp =>
      rw [written, entry, new]
      dsimp only
      split_ifs
      · rw [Option.map_some, Option.getD_some, ← logSecurityEvent_eq]
        simp only [logStart, AuditEntry.category, AuditEntry.timedOut?, Option.map_none,
          AuditEntry.action, AuditEntry.details, List.append_nil]
      · rfl
  | complete now timestamp success result =>
      rw [written, entry, logCompletion]
      cases g.config.logResult with
      | false => rfl
      | true =>
          rw [if_pos rfl, Bool.not_true, if_neg Bool.false_ne_true, Option.map_some,
            Option.getD_some, ← logSecurityEvent_eq]
          simp only [AuditEntry.category, AuditEntry.timedOut?, Option.map_some, AuditEntry.details]
          cases g.isTimeout now <;> simp [AuditEntry.action]

/-- An entry names the tool and the user of the guard. -/
theorem entry_names (g : ToolExecutionGuard) {c : GuardCall} {e : AuditEntry}
    (h : g.entry c = some e) : e.toolName = g.toolName ∧ e.userId = g.userId := by
  cases c with
  | start timestamp =>
      rw [entry, Option.ite_none_right_eq_some] at h
      cases h.2
      exact ⟨rfl, rfl⟩
  | complete now timestamp success result =>
      rw [entry, Option.ite_none_right_eq_some] at h
      cases h.2
      exact ⟨rfl, rfl⟩

end ToolExecutionGuard

theorem auditEntries_cons (c : ToolExecutionGuard × GuardCall) (calls : GuardCalls) :
    auditEntries (c :: calls) = (c.1.entry c.2).toList ++ auditEntries calls := by
  cases hentry : c.1.entry c.2 <;> simp [auditEntries, hentry]

theorem auditLog_eq (calls : GuardCalls) :
    auditLog calls = terminated [newline] ((auditEntries calls).map AuditEntry.line) := by
  induction calls with
  | nil => rfl
  | cons c calls ih =>
      rw [auditLog, List.flatMap_cons, c.1.written_eq, ← auditLog, ih, auditEntries_cons]
      cases c.1.entry c.2 <;> rfl

/-! ## Lines -/

namespace AuditEntry

theorem newline_notMem_category (o : Option Outcome) :
    newline ∉ categoryToString (category o) := by
  have hall : ∀ c : SecurityEventCategory, newline ∉ categoryToString c := by
    intro c
    cases c <;> decide
  exact hall _

theorem newline_notMem_action (timedOut : Option Bool) : newline ∉ action timedOut := by
  revert timedOut
  decide

theorem newline_notMem_details (o : Option Outcome) : newline ∉ details o := by
  cases o with
  | none => exact List.not_mem_nil
  | some o =>
      have hsize : newline ∉ decimal o.resultSize :=
        fun h => absurd (isdigit_decimal _ _ h) (by decide)
      have hsuccess : newline ∉ (if o.success then ascii "true" else ascii "false") := by
        split_ifs <;> decide
      have hlabels : newline ∉ ascii ",success=" ∧ newline ∉ ascii ",result_size=" := by decide
      rw [details]
      simp only [List.mem_append, not_or]
      exact ⟨⟨⟨hlabels.1, hsuccess⟩, hlabels.2⟩, hsize⟩

theorem newline_mem_line (e : AuditEntry) : newline ∈ e.line ↔
    newline ∈ e.timestamp ∨ newline ∈ e.toolName ∨ newline ∈ e.userId := by
  have hlabels : newline ∉ ascii "[" ∧ newline ∉ ascii "] SECURITY | " ∧ newline ∉ ascii " | " ∧
      newline ∉ ascii " | user=" ∧ newline ∉ ascii ",tool=" := by
    decide
  rw [line]
  simp only [List.mem_append, hlabels, newline_notMem_category, newline_notMem_action,
    newline_notMem_details, false_or, or_false]
  tauto

end AuditEntry

/-- Each entry of the log is a line, and there are no other lines, if and only if no time,
tool or user of an entry has a newline. -/
theorem auditLog_lines_iff (calls : GuardCalls) :
    getlines (auditLog calls) = (auditEntries calls).map AuditEntry.line ↔
      ∀ e ∈ auditEntries calls, newline ∉ e.timestamp ∧ newline ∉ e.toolName ∧
        newline ∉ e.userId := by
  rw [auditLog_eq, getlines_terminated_iff, List.forall_mem_map]
  refine forall₂_congr fun e _ => ?_
  rw [e.newline_mem_line, not_or, not_or]

/-! ## What a line says -/

abbrev pipe : UInt8 := 0x7C

namespace AuditEntry

/-- The fields have nothing in them that separates fields. -/
structure Proper (e : AuditEntry) : Prop where
  timestamp : rbracket ∉ e.timestamp ∧ newline ∉ e.timestamp
  toolName : pipe ∉ e.toolName ∧ newline ∉ e.toolName
  userId : comma ∉ e.userId ∧ newline ∉ e.userId

theorem decimal_injective {n n' : Nat} (h : decimal n = decimal n') : n = n' := by
  rw [← natFrom_decimal n, h, natFrom_decimal]

theorem details_inj {o o' : Outcome} (h : details (some o) = details (some o')) :
    o.success = o'.success ∧ o.resultSize = o'.resultSize := by
  rw [details, details, List.append_assoc, List.append_assoc, List.append_assoc,
    List.append_assoc] at h
  have hrest := List.append_cancel_left h
  cases hsuccess : o.success <;> cases hsuccess' : o'.success <;>
    rw [hsuccess, hsuccess'] at hrest
  · exact ⟨rfl, decimal_injective (List.append_cancel_left (List.append_cancel_left hrest))⟩
  · have hhead : some (0x66 : UInt8) = some 0x74 := congrArg List.head? hrest
    exact absurd hhead (by decide)
  · have hhead : some (0x74 : UInt8) = some 0x66 := congrArg List.head? hrest
    exact absurd hhead (by decide)
  · exact ⟨rfl, decimal_injective (List.append_cancel_left (List.append_cancel_left hrest))⟩

/-- What is behind the time, split at the first `|`, the second one and the first comma. -/
theorem line_split (e : AuditEntry) : e.line =
    ascii "[" ++ (e.timestamp ++ rbracket :: (ascii " SECURITY " ++ pipe ::
      ((ascii " " ++ categoryToString (category e.outcome) ++ ascii " ") ++ pipe ::
        ((ascii " " ++ action e.timedOut? ++ e.toolName ++ ascii " ") ++ pipe ::
          (ascii " user=" ++ (e.userId ++ comma ::
            (ascii "tool=" ++ (e.toolName ++ details e.outcome)))))))) := by
  have hsecurity : ascii "] SECURITY | " =
      rbracket :: (ascii " SECURITY " ++ pipe :: ascii " ") := by decide
  have hpipe : ascii " | " = ascii " " ++ pipe :: ascii " " := by decide
  have huser : ascii " | user=" = ascii " " ++ pipe :: ascii " user=" := by decide
  have htool : ascii ",tool=" = comma :: ascii "tool=" := by decide
  rw [line, hsecurity, hpipe, huser, htool]
  simp only [List.append_assoc, List.cons_append]

theorem pipe_notMem_category (o : Option Outcome) :
    pipe ∉ ascii " " ++ categoryToString (category o) ++ ascii " " := by
  have hall : ∀ c : SecurityEventCategory, pipe ∉ ascii " " ++ categoryToString c ++ ascii " " := by
    intro c
    cases c <;> decide
  exact hall _

theorem pipe_notMem_action (timedOut : Option Bool) : pipe ∉ action timedOut := by
  revert timedOut
  decide

/-- The letter behind `Tool execution ` tells the actions apart. -/
theorem action_inj {o o' : Option Bool} {t t' : Bytes} (h : action o ++ t = action o' ++ t') :
    o = o' ∧ t = t' := by
  have hletter : ∀ (o : Option Bool) (t : Bytes), (action o ++ t).getD 15 0 =
      (action o).getD 15 0 := by
    intro o t
    match o with
    | none => rfl
    | some true => rfl
    | some false => rfl
  have hletters := congrArg (List.getD · 15 0) h
  simp only [hletter] at hletters
  have hdistinct : ∀ o o' : Option Bool,
      (action o).getD 15 0 = (action o').getD 15 0 → o = o' := by
    decide
  obtain rfl := hdistinct o o' hletters
  exact ⟨rfl, List.append_cancel_left h⟩

theorem outcome_inj {o o' : Option Outcome}
    (htimedOut : o.map (·.timedOut) = o'.map (·.timedOut)) (h : details o = details o') :
    o = o' := by
  cases o with
  | none =>
      cases o' with
      | none => rfl
      | some o' => exact absurd htimedOut (Option.some_ne_none _).symm
  | some o =>
      cases o' with
      | none => exact absurd htimedOut (Option.some_ne_none _)
      | some o' =>
          obtain ⟨hsuccess, hsize⟩ := details_inj h
          obtain ⟨timedOut, success, resultSize⟩ := o
          cases Option.some.inj htimedOut
          cases hsuccess
          cases hsize
          rfl

/-- Proper entries with the same line are the same. -/
theorem line_inj {e e' : AuditEntry} (he : e.Proper) (he' : e'.Proper) (h : e.line = e'.line) :
    e = e' := by
  have hfront : pipe ∉ ascii " SECURITY " := by decide
  have hmiddle : ∀ {e : AuditEntry}, e.Proper →
      pipe ∉ ascii " " ++ action e.timedOut? ++ e.toolName ++ ascii " " := by
    intro e he
    have hblank : pipe ∉ ascii " " := by decide
    simp only [List.mem_append, not_or]
    exact ⟨⟨⟨hblank, pipe_notMem_action _⟩, he.toolName.1⟩, hblank⟩
  rw [line_split, line_split] at h
  obtain ⟨htime, h⟩ := append_cons_inj he.timestamp.1 he'.timestamp.1 (List.append_cancel_left h)
  obtain ⟨-, h⟩ := append_cons_inj hfront hfront h
  obtain ⟨-, h⟩ := append_cons_inj (pipe_notMem_category _) (pipe_notMem_category _) h
  obtain ⟨hdone, h⟩ := append_cons_inj (hmiddle he) (hmiddle he') h
  obtain ⟨huser, h⟩ := append_cons_inj he.userId.1 he'.userId.1 (List.append_cancel_left h)
  rw [List.append_assoc, List.append_assoc, List.append_assoc, List.append_assoc] at hdone
  obtain ⟨houtcome, htool⟩ := action_inj (List.append_cancel_left hdone)
  have htool' := List.append_cancel_right htool
  have hdetails := List.append_cancel_left h
  rw [htool'] at hdetails
  have hdetails' := List.append_cancel_left hdetails
  obtain ⟨timestamp, toolName, userId, outcome⟩ := e
  obtain ⟨timestamp', toolName', userId', outcome'⟩ := e'
  cases htime
  cases htool'
  cases huser
  cases outcome_inj houtcome hdetails'
  rfl

theorem lines_inj {es es' : List AuditEntry} (hes : ∀ e ∈ es, e.Proper)
    (hes' : ∀ e ∈ es', e.Proper) (h : es.map line = es'.map line) : es = es' := by
  induction es generalizing es' with
  | nil =>
      cases es' with
      | nil => rfl
      | cons e' es' => cases h
  | cons e es ih =>
      cases es' with
      | nil => cases h
      | cons e' es' =>
          rw [List.forall_mem_cons] at hes hes'
          rw [List.map_cons, List.map_cons, List.cons.injEq] at h
          rw [line_inj hes.1 hes'.1 h.1, ih hes.2 hes'.2 h.2]

end AuditEntry

/-- What any guards write to the log says who has started and completed what, in which
order and with which outcome: with names that separate no fields, the same log comes from
the same entries alone. -/
theorem auditLog_inj {calls calls' : GuardCalls} (h : ∀ e ∈ auditEntries calls, e.Proper)
    (h' : ∀ e ∈ auditEntries calls', e.Proper) :
    auditLog calls = auditLog calls' ↔ auditEntries calls = auditEntries calls' := by
  have hlines : ∀ {calls : GuardCalls}, (∀ e ∈ auditEntries calls, e.Proper) →
      getlines (auditLog calls) = (auditEntries calls).map AuditEntry.line := by
    intro calls hproper
    rw [auditLog_lines_iff]
    intro e he
    have hname := hproper e he
    exact ⟨hname.timestamp.2, hname.toolName.2, hname.userId.2⟩
  constructor
  · intro heq
    apply AuditEntry.lines_inj h h'
    rw [← hlines h, heq, hlines h']
  · intro heq
    rw [auditLog_eq, auditLog_eq, heq]

/-- bob starts a search, and it is completed in time. -/
def searchCalls : GuardCalls :=
  let g := (ToolExecutionGuard.new (ascii "search") (ascii "bob") {} 0 0 []).1
  [(g, .start (ascii "12:00:00.000")), (g, .complete 5 (ascii "12:00:00.001") true (ascii "ok"))]

theorem searchCalls_proper : ∀ e ∈ auditEntries searchCalls, e.Proper := by
  have hentries : auditEntries searchCalls =
      [⟨ascii "12:00:00.000", ascii "search", ascii "bob", none⟩,
        ⟨ascii "12:00:00.001", ascii "search", ascii "bob", some ⟨false, true, 2⟩⟩] := by
    decide
  rw [hentries, List.forall_mem_cons, List.forall_mem_singleton]
  exact ⟨⟨by decide, by decide, by decide⟩, ⟨by decide, by decide, by decide⟩⟩

/-- bob starts a search, and it is not completed. -/
def openCalls : GuardCalls := searchCalls.take 1

theorem openCalls_proper : ∀ e ∈ auditEntries openCalls, e.Proper := by
  have hentries : auditEntries openCalls =
      [⟨ascii "12:00:00.000", ascii "search", ascii "bob", none⟩] := by
    decide
  rw [hentries, List.forall_mem_singleton]
  exact ⟨by decide, by decide, by decide⟩

theorem auditLog_inj_of_search : auditLog searchCalls ≠ auditLog openCalls := by
  have hentries : auditEntries searchCalls ≠ auditEntries openCalls := by decide
  exact fun h => hentries ((auditLog_inj searchCalls_proper openCalls_proper).mp h)

/-! ## Guards for the calls of a run -/

section run

variable {σ : Type} {server : Server σ} {hmac : Bytes → Bytes → Digest} {s s' : AdapterState σ}
variable {events : List Event}

theorem line_mem_of_timed {clock : Nat → Int × Int} {lines : List Bytes} {i : Input}
    (h : i ∈ timed clock lines) : i.line ∈ lines := by
  obtain ⟨n, hn, rfl⟩ := List.mem_mapIdx.mp h
  exact List.getElem_mem hn

theorem notMem_of_infix {b : UInt8} {t l : Bytes} (h : t <:+: l) (hl : b ∉ l) : b ∉ t :=
  fun hb => hl (h.subset hb)

/-- The user that a guard is given, empty for nobody. -/
def callerId (user : Option User) : Bytes := (user.map (·.userId)).getD []

/-- Whatever a client sends, it adds no lines to the log: if the guards are for the tools
and the users of the calls in a run, each entry is a line. -/
theorem calls_audited {stdin : Bytes} {clock : Nat → Int × Int}
    (hrun : run server hmac (timed clock (getlines stdin)) s = .ok (s', events))
    (hdefault : server.extractAuthToken = none) {calls : GuardCalls}
    (hguards : ∀ c ∈ calls, ∃ args user,
      .callTool c.1.toolName args user ∈ events ∧ c.1.userId = callerId user)
    (htimes : ∀ e ∈ auditEntries calls, newline ∉ e.timestamp) :
    getlines (auditLog calls) = (auditEntries calls).map AuditEntry.line := by
  rw [auditLog_lines_iff]
  intro e he
  obtain ⟨c, hc, hentry⟩ := List.mem_filterMap.mp he
  obtain ⟨args, user, hcall, huser⟩ := hguards c hc
  obtain ⟨before, i, after, s₁, earlier, msg, hinputs, -, hcalled⟩ := run_called hrun hcall
  obtain ⟨hname, -, hcaller⟩ := hcalled.handed
  have hline : newline ∉ i.line := by
    apply newline_notMem_getlines stdin
    refine @line_mem_of_timed clock _ _ ?_
    rw [hinputs]
    exact List.mem_append_right before List.mem_cons_self
  have huserId : newline ∉ c.1.userId := by
    rw [huser]
    cases user with
    | none => exact List.not_mem_nil
    | some u => exact notMem_of_infix (hcaller hdefault u rfl).1 hline
  obtain ⟨htool, hid⟩ := c.1.entry_names hentry
  rw [htool, hid]
  exact ⟨htimes e he, notMem_of_infix hname hline, huserId⟩

end run

/-- The call of alice is logged. -/
def aliceCalls : GuardCalls :=
  [((ToolExecutionGuard.new (ascii "t") (ascii "alice") {} 0 0 []).1,
    .start (ascii "12:00:00.000"))]

theorem calls_audited_of_alice :
    getlines (auditLog aliceCalls) = (auditEntries aliceCalls).map AuditEntry.line := by
  obtain ⟨s', events, hrun, hcall⟩ := run_callLine
  have hlines : getlines (callLine aliceToken) = [callLine aliceToken] := by decide +kernel
  have hstdin : timed (fun _ => (0, 0)) (getlines (callLine aliceToken)) =
      [⟨callLine aliceToken, 0, 0⟩] := by
    rw [hlines]
    rfl
  have htimes : ∀ e ∈ auditEntries aliceCalls, newline ∉ e.timestamp := by decide
  rw [← hstdin] at hrun
  exact calls_audited hrun rfl (List.forall_mem_singleton.mpr ⟨_, some alice, hcall, rfl⟩) htimes

end McpToolkit
