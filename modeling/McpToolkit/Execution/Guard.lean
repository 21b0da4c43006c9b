import McpToolkit.Base.Decimal
import McpToolkit.Base.Runs
import McpToolkit.Rate.Limiter
/-!
# Tools that are being executed

`TimeoutManager`, `ToolExecutionGuard` and the security log as the sources have them.
Time is counted in nanoseconds of the steady clock and durations in milliseconds.  A
line of the log is what is written to `std::cerr`; the time that it starts with is text.
-/

namespace McpToolkit

open TokenBucket (milliseconds)

/-! ## Timeouts -/

structure TimeoutGuard where
  timeoutId : UInt64 := 0
  startTime : Int
  timeoutMs : Int
  deriving Repr, DecidableEq

structure TimeoutManager where
  nextId : UInt64 := 0
  defaultTimeout : Int := 5000
  deriving Repr, DecidableEq

namespace TimeoutManager

def startTimeout (m : TimeoutManager) (duration now : Int) : TimeoutGuard × TimeoutManager :=
  (⟨m.nextId, now, duration⟩, { m with nextId := m.nextId + 1 })

/-- The manager is not looked at. -/
def isTimeout (_ : TimeoutManager) (guard : TimeoutGuard) (now : Int) : Bool :=
  milliseconds (now - guard.startTime) ≥ guard.timeoutMs

def setDefaultTimeout (m : TimeoutManager) (ms : Int) : TimeoutManager :=
  { m with defaultTimeout := ms }

def getDefaultTimeout (m : TimeoutManager) : Int := m.defaultTimeout

end TimeoutManager

/-! ## The security log -/

inductive SecurityEventCategory where
  | parseError
  | validationError
  | dispatchError
  | timeout
  | sessionClosed
  deriving Repr, DecidableEq

def categoryToString : SecurityEventCategory → Bytes
  | .parseError => ascii "parse_error"
  | .validationError => ascii "validation_error"
  | .dispatchError => ascii "dispatch_error"
  | .timeout => ascii "timeout"
  | .sessionClosed => ascii "session_closed"

/-- What is written to the log. -/
def logSecurityEvent (timestamp : Bytes) (category : SecurityEventCategory)
    (detail context : Bytes) : Bytes :=
  ascii "[" ++ timestamp ++ ascii "] SECURITY | " ++ categoryToString category ++ ascii " | " ++
    detail ++ (if context.isEmpty then [] else ascii " | " ++ context) ++ [newline]

/-! ## Guards -/

structure ExecutionConfig where
  /-- 30 s. -/
  timeout : Int := 30 * 1000
  logInvocation : Bool := true
  logResult : Bool := true
  /-- 1 MB. -/
  maxOutputSize : Nat := 1024 * 1024
  deriving Repr, DecidableEq

structure ToolExecutionGuard where
  toolName : Bytes
  userId : Bytes
  config : ExecutionConfig
  timeoutGuard : TimeoutGuard
  startTime : Int
  deriving Repr, DecidableEq

namespace ToolExecutionGuard

def isTimeout (g : ToolExecutionGuard) (now : Int) : Bool :=
  milliseconds (now - g.startTime) > g.config.timeout

def logStart (g : ToolExecutionGuard) (timestamp : Bytes) : Bytes :=
  logSecurityEvent timestamp .dispatchError (ascii "Tool execution started: " ++ g.toolName)
    (ascii "user=" ++ g.userId ++ ascii ",tool=" ++ g.toolName)

/-- The constructor, which reads the clock for each of its two members. -/
def new (toolName userId : Bytes) (config : ExecutionConfig) (now later : Int)
    (timestamp : Bytes) : ToolExecutionGuard × Bytes :=
  let g : ToolExecutionGuard :=
    { toolName, userId, config
      timeoutGuard := { startTime := now, timeoutMs := config.timeout }
      startTime := later }
  (g, if config.logInvocation then g.logStart timestamp else [])

/-- What is written of the end of an execution, of whose result the size is looked at. -/
def logCompletion (g : ToolExecutionGuard) (now : Int) (timestamp : Bytes) (success : Bool)
    (result : Bytes) : Bytes :=
  if !g.config.logResult then []
  else
    let context := ascii "user=" ++ g.userId ++ ascii ",tool=" ++ g.toolName ++
      ascii ",success=" ++ (if success then ascii "true" else ascii "false") ++
      ascii ",result_size=" ++ decimal result.length
    if g.isTimeout now then
      logSecurityEvent timestamp .timeout (ascii "Tool execution timeout: " ++ g.toolName) context
    else
      logSecurityEvent timestamp (if success then .dispatchError else .validationError)
        (ascii "Tool execution completed: " ++ g.toolName) context

/-- The control characters that no output may have. -/
def isForbidden (c : UInt8) : Bool := c < 0x20 && c ≠ 9 && c ≠ newline && c ≠ 13

/-- What is wrong with an output, if anything is. -/
def validateOutput (output : Bytes) (maxSize : Nat) : Option Bytes :=
  if output.length > maxSize then
    some (ascii "Tool output exceeds maximum size (" ++ decimal maxSize ++ ascii " bytes)")
  else if output.any isForbidden then
    some (ascii "Tool output contains control characters")
  else none

def getRemainingTime (g : ToolExecutionGuard) (now : Int) : Int :=
  let elapsed := milliseconds (now - g.startTime)
  if elapsed ≥ g.config.timeout then 0 else g.config.timeout - elapsed

end ToolExecutionGuard

/-! ## Deadlines -/

/-- So many milliseconds after an instant. -/
def afterMs (start ms : Int) : Int := start + ms * 1000000

theorem le_milliseconds_iff {start now : Int} (h : start ≤ now) (ms : Int) :
    ms ≤ milliseconds (now - start) ↔ afterMs start ms ≤ now := by
  have hdiv : milliseconds (now - start) = (now - start) / 1000000 :=
    Int.tdiv_eq_ediv_of_nonneg (by omega)
  rw [hdiv, afterMs]
  omega

theorem milliseconds_afterMs {start now : Int} (h : start ≤ now) (ms : Int) (hms : 0 ≤ ms) :
    milliseconds (afterMs now ms - start) = milliseconds (now - start) + ms := by
  have hdiv : milliseconds (now - start) = (now - start) / 1000000 :=
    Int.tdiv_eq_ediv_of_nonneg (by omega)
  have hdiv' : milliseconds (afterMs now ms - start) = (afterMs now ms - start) / 1000000 :=
    Int.tdiv_eq_ediv_of_nonneg (by rw [afterMs]; omega)
  rw [hdiv, hdiv', afterMs]
  omega

theorem TimeoutManager.isTimeout_iff (m : TimeoutManager) {guard : TimeoutGuard} {now : Int}
    (h : guard.startTime ≤ now) :
    m.isTimeout guard now = true ↔ afterMs guard.startTime guard.timeoutMs ≤ now := by
  rw [isTimeout, decide_eq_true_eq, ge_iff_le, le_milliseconds_iff h]

namespace ToolExecutionGuard

variable {g : ToolExecutionGuard} {now : Int}

theorem getRemainingTime_eq_zero_iff (h : g.startTime ≤ now) :
    g.getRemainingTime now = 0 ↔ afterMs g.startTime g.config.timeout ≤ now := by
  rw [← le_milliseconds_iff h, getRemainingTime]
  split_ifs <;> omega

theorem isTimeout_iff (h : g.startTime ≤ now) :
    g.isTimeout now = true ↔ afterMs g.startTime (g.config.timeout + 1) ≤ now := by
  rw [isTimeout, decide_eq_true_eq, ← le_milliseconds_iff h]
  omega

/-- To wait for the time that remains, and no shorter, is to wait until none remains. -/
theorem getRemainingTime_afterMs (h : g.startTime ≤ now) {ms : Int} (hms : 0 ≤ ms) :
    g.getRemainingTime (afterMs now ms) = 0 ↔ g.getRemainingTime now ≤ ms := by
  have helapsed := milliseconds_afterMs h ms hms
  rw [getRemainingTime, getRemainingTime, helapsed]
  split_ifs <;> omega

/-- The three deadlines of a guard.  Its timeout guard has run out first, then no time
remains, and the guard says so a millisecond later than that. -/
theorem deadlines (toolName userId : Bytes) (config : ExecutionConfig) {now later : Int}
    (hlater : now ≤ later) (timestamp : Bytes) {t : Int} (ht : later ≤ t) (m : TimeoutManager) :
    let g := (new toolName userId config now later timestamp).1
    (m.isTimeout g.timeoutGuard t = true ↔ afterMs now config.timeout ≤ t) ∧
      (g.getRemainingTime t = 0 ↔ afterMs later config.timeout ≤ t) ∧
      (g.isTimeout t = true ↔ afterMs later (config.timeout + 1) ≤ t) ∧
      (g.isTimeout t = true → g.getRemainingTime t = 0) ∧
      (g.getRemainingTime t = 0 → m.isTimeout g.timeoutGuard t = true) ∧
      ∀ ms, 0 ≤ ms → (g.getRemainingTime (afterMs t ms) = 0 ↔ g.getRemainingTime t ≤ ms) := by
  intro g
  have hfirst : m.isTimeout g.timeoutGuard t = true ↔ afterMs now config.timeout ≤ t :=
    m.isTimeout_iff (hlater.trans ht)
  have hsecond : g.getRemainingTime t = 0 ↔ afterMs later config.timeout ≤ t :=
    getRemainingTime_eq_zero_iff ht
  have hthird : g.isTimeout t = true ↔ afterMs later (config.timeout + 1) ≤ t := isTimeout_iff ht
  refine ⟨hfirst, hsecond, hthird, ?_, ?_, fun ms => getRemainingTime_afterMs ht⟩
  · rw [hsecond, hthird, afterMs, afterMs]
    omega
  · rw [hfirst, hsecond, afterMs, afterMs]
    omega

end ToolExecutionGuard

end McpToolkit
