import McpToolkit.Base.Bytes
import McpToolkit.Base.Clock
import McpToolkit.Base.Table
/-!
# Sessions

`SessionManager` as the sources have it.  An operation takes place at one instant,
which all its readings of the clock return; time is counted in nanoseconds.  The
difference of two readings always fits into 64 bits, a timeout of the configuration
need not.  What the operating system gives in answer to a request for random octets
is an argument of the operations that make one.
-/

namespace McpToolkit

structure SessionConfig where
  /-- In seconds. -/
  idleTimeout : Int := 1800
  /-- In seconds. -/
  absoluteTtl : Int := 86400
  idBytes : Nat := 32
  bindUserAgent : Bool := true
  deriving Repr, DecidableEq

structure SessionData where
  userId : Bytes
  userAgent : Bytes
  createdAt : Int
  lastActive : Int
  deriving Repr, DecidableEq

structure SessionResult where
  valid : Bool := false
  sessionId : Bytes := []
  error : Bytes := []
  deriving Repr, DecidableEq

/-- What the operating system does with a buffer of `n` octets, call by call: the
result of the system call and the buffer it leaves. -/
structure RandomSource where
  getrandom : (n : Nat) → Int × { buf : Bytes // buf.length = n }
  /-- `/dev/urandom` can be opened. -/
  opens : Bool
  read : (n : Nat) → Int × { buf : Bytes // buf.length = n }

/-- The octets of an id: from `getrandom`, else from `/dev/urandom`, else zeros. -/
def randomBytes (n : Nat) (source : RandomSource) : Bytes :=
  let (result, buf) := source.getrandom n
  if result < 0 || result ≠ n then
    if !source.opens then List.replicate n 0
    else
      let (bytesRead, buf) := source.read n
      if bytesRead ≠ n then List.replicate n 0 else buf.1
  else buf.1

/-- Two hexadecimal digits for every octet. -/
def hexText (s : Bytes) : Bytes := s.flatMap fun b => [hexDigit (b / 16), hexDigit (b % 16)]

structure SessionManager where
  config : SessionConfig := {}
  configured : Bool := false
  sessions : Table Bytes SessionData := ∅
  deriving DecidableEq

namespace SessionManager

def generateId (m : SessionManager) (source : RandomSource) : Bytes :=
  hexText (randomBytes m.config.idBytes source)

def isExpired (m : SessionManager) (now : Int) (s : SessionData) : Bool :=
  let idle := now - s.lastActive
  let age := now - s.createdAt
  idle > nanoseconds m.config.idleTimeout || age > nanoseconds m.config.absoluteTtl

def notConfigured : SessionResult := { error := ascii "SessionManager not configured" }

def configure (m : SessionManager) (config : SessionConfig) : SessionManager :=
  { m with config, configured := true }

def createAnonymous (m : SessionManager) (source : RandomSource) (now : Int) :
    SessionResult × SessionManager :=
  if !m.configured then (notConfigured, m)
  else
    let id := m.generateId source
    (⟨true, id, []⟩, { m with sessions := m.sessions.insert id ⟨[], [], now, now⟩ })

def login (m : SessionManager) (source : RandomSource) (oldSessionId userId userAgent : Bytes)
    (now : Int) : SessionResult × SessionManager :=
  if !m.configured then (notConfigured, m)
  else if userId.isEmpty then ({ error := ascii "user_id required" }, m)
  else
    let sessions := m.sessions.erase oldSessionId
    let newId := m.generateId source
    (⟨true, newId, []⟩, { m with sessions := sessions.insert newId ⟨userId, userAgent, now, now⟩ })

def validate (m : SessionManager) (sessionId userAgent : Bytes) (now : Int) :
    SessionResult × SessionManager :=
  if !m.configured then (notConfigured, m)
  else
    match m.sessions.lookup sessionId with
    | none => ({ error := ascii "Session not found" }, m)
    | some s =>
        if m.isExpired now s then
          ({ error := ascii "Session expired" }, { m with sessions := m.sessions.erase sessionId })
        else if m.config.bindUserAgent && !s.userAgent.isEmpty && s.userAgent ≠ userAgent then
          ({ error := ascii "Session user-agent mismatch" },
            { m with sessions := m.sessions.erase sessionId })
        else
          (⟨true, sessionId, []⟩,
            { m with sessions := m.sessions.insert sessionId { s with lastActive := now } })

def logout (m : SessionManager) (sessionId : Bytes) : SessionManager :=
  { m with sessions := m.sessions.erase sessionId }

def purgeExpired (m : SessionManager) (now : Int) : SessionManager :=
  { m with sessions := m.sessions.eraseIf (m.isExpired now) }

def activeCount (m : SessionManager) : Nat := m.sessions.entries.length

/-! ## What they do -/

variable {m : SessionManager}

theorem createAnonymous_unconfigured (h : m.configured = false) (source : RandomSource)
    (now : Int) : m.createAnonymous source now = (notConfigured, m) := by
  rw [createAnonymous, if_pos (by rw [h, Bool.not_false])]

theorem createAnonymous_configured (h : m.configured = true) (source : RandomSource) (now : Int) :
    m.createAnonymous source now = (⟨true, m.generateId source, []⟩,
      { m with sessions := m.sessions.insert (m.generateId source) ⟨[], [], now, now⟩ }) := by
  rw [createAnonymous, if_neg (by simp [h])]

/-- A refused login changes nothing. -/
theorem login_refused (source : RandomSource) (old : Bytes) {userId : Bytes}
    (h : m.configured = false ∨ userId = []) (agent : Bytes) (now : Int) :
    (m.login source old userId agent now).1.valid = false ∧
      (m.login source old userId agent now).2 = m := by
  unfold login
  split_ifs with hconfigured huser
  · exact ⟨rfl, rfl⟩
  · exact ⟨rfl, rfl⟩
  · exfalso
    rcases h with h | h
    · exact hconfigured (by rw [h, Bool.not_false])
    · exact huser (by rw [h, List.isEmpty_nil])

theorem login_accepted (h : m.configured = true) (source : RandomSource) (old : Bytes)
    {userId : Bytes} (huser : userId ≠ []) (agent : Bytes) (now : Int) :
    m.login source old userId agent now = (⟨true, m.generateId source, []⟩,
      { m with
        sessions := (m.sessions.erase old).insert (m.generateId source)
          ⟨userId, agent, now, now⟩ }) := by
  rw [login, if_neg (by simp [h]), if_neg (by simpa using huser)]

/-- The recorded user agent of a session does not let this one pass. -/
def mismatches (m : SessionManager) (s : SessionData) (userAgent : Bytes) : Bool :=
  m.config.bindUserAgent && !s.userAgent.isEmpty && s.userAgent ≠ userAgent

theorem validate_refused (s agent : Bytes) (now : Int)
    (h : m.configured = false ∨ m.sessions.lookup s = none) :
    (m.validate s agent now).1.valid = false ∧ (m.validate s agent now).2 = m := by
  unfold validate
  split_ifs with hconfigured
  · exact ⟨rfl, rfl⟩
  · rcases h with h | h
    · exact absurd (by rw [h, Bool.not_false]) hconfigured
    · rw [h]
      exact ⟨rfl, rfl⟩

theorem validate_ended (h : m.configured = true) {s : Bytes} {d : SessionData}
    (hd : m.sessions.lookup s = some d) (agent : Bytes) (now : Int)
    (hend : m.isExpired now d = true ∨ m.mismatches d agent = true) :
    (m.validate s agent now).1.valid = false ∧
      (m.validate s agent now).2 = { m with sessions := m.sessions.erase s } := by
  rw [validate, if_neg (by simp [h]), hd]
  dsimp only
  split_ifs with hexpired hmismatch
  · exact ⟨rfl, rfl⟩
  · exact ⟨rfl, rfl⟩
  · exact absurd hend (not_or.mpr ⟨hexpired, hmismatch⟩)

theorem validate_accepted (h : m.configured = true) {s : Bytes} {d : SessionData}
    (hd : m.sessions.lookup s = some d) (agent : Bytes) (now : Int)
    (hexpired : m.isExpired now d = false) (hmismatch : m.mismatches d agent = false) :
    m.validate s agent now = (⟨true, s, []⟩,
      { m with sessions := m.sessions.insert s { d with lastActive := now } }) := by
  rw [mismatches] at hmismatch
  rw [validate, if_neg (by simp [h]), hd]
  dsimp only
  rw [hexpired, if_neg Bool.false_ne_true, hmismatch, if_neg Bool.false_ne_true]

end SessionManager

/-! ## Calls -/

inductive SessionOp where
  | configure (config : SessionConfig)
  | createAnonymous (source : RandomSource)
  | login (source : RandomSource) (oldSessionId userId userAgent : Bytes)
  | validate (sessionId userAgent : Bytes)
  | logout (sessionId : Bytes)
  | purgeExpired

/-- An operation and the time at which it takes place. -/
structure SessionCall where
  now : Int
  op : SessionOp

def SessionManager.step (m : SessionManager) (c : SessionCall) :
    Option SessionResult × SessionManager :=
  match c.op with
  | .configure config => (none, m.configure config)
  | .createAnonymous source => (m.createAnonymous source c.now).map some id
  | .login source oldSessionId userId userAgent =>
      (m.login source oldSessionId userId userAgent c.now).map some id
  | .validate sessionId userAgent => (m.validate sessionId userAgent c.now).map some id
  | .logout sessionId => (none, m.logout sessionId)
  | .purgeExpired => (none, m.purgeExpired c.now)

end McpToolkit
