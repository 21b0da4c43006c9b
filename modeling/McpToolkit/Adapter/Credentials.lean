import McpToolkit.Adapter.Bearer
/-!
# The life of a credential

A run of calls on the authentication handler and of requests, in any order.  The
calls may also come from the virtual functions of the server while they serve a
request.  A token that has once been revoked reaches no handler any more, nor does
one whose latest registration is too old, unless it is so old that its age does not fit
into 64 bits.
-/

namespace McpToolkit

/-- A call on the authentication handler. -/
inductive TokenCall where
  | configure (config : AuthConfig)
  | registerToken (token : Bytes) (issuedAt : Int)
  | revokeToken (token : Bytes)
  | setTokenSecret (secretKey : Bytes)
  | recordFailure (clientId : Bytes)
  | resetFailures (clientId : Bytes)
  deriving Repr, DecidableEq

def TokenCall.run (h : AuthenticationHandler) : TokenCall → AuthenticationHandler
  | .configure config => h.configure config
  | .registerToken token issuedAt => h.registerToken token issuedAt
  | .revokeToken token => h.revokeToken token
  | .setTokenSecret secretKey => h.setTokenSecret secretKey
  | .recordFailure clientId => h.recordFailure clientId
  | .resetFailures clientId => h.resetFailures clientId

/-- A request as the authentication step saw it. -/
structure Presented where
  /-- What `extract_auth_token` returned. -/
  header : Bytes
  handler : AuthenticationHandler
  /-- The time at which the header was validated. -/
  now : Int
  /-- A handler was entered behind the gate. -/
  reached : Bool

inductive Happening where
  | call (c : TokenCall)
  | request (r : Presented)

namespace MCPAdapter

/-- A run from a state to another, with what happened to credentials on the way. -/
inductive Runs {σ : Type} (server : Server σ) (hmac : Bytes → Bytes → Digest)
    (s : AdapterState σ) : List Happening → AdapterState σ → Prop where
  | start : Runs server hmac s [] s
  | call {trace : List Happening} {s₁ s₂ : AdapterState σ} (c : TokenCall) :
      Runs server hmac s trace s₁ → s₁.adapter.Reaches s₂.adapter →
      s₂.adapter.authHandler = c.run s₁.adapter.authHandler →
      Runs server hmac s (trace ++ [.call c]) s₂
  /-- Anything that leaves the authentication handler alone. -/
  | other {trace : List Happening} {s₁ s₂ : AdapterState σ} :
      Runs server hmac s trace s₁ → s₁.adapter.Reaches s₂.adapter →
      s₂.adapter.authHandler = s₁.adapter.authHandler → Runs server hmac s trace s₂
  /-- A request, with the calls that `extract_auth_token` made, and those that were
  made later while it was served. -/
  | request {trace : List Happening} {s₁ s₀ s₂ : AdapterState σ} {msg : MCPMessage}
      {header : Bytes} {now later : Int} {events : List Event} (early late : List TokenCall) :
      Runs server hmac s trace s₁ → msg.isRequest = true → msg.id ≠ none →
      extractAuthToken server s₁ msg = .ok (header, s₀) →
      s₀.adapter.authHandler = early.foldl TokenCall.run s₁.adapter.authHandler →
      dispatch server hmac now later s₁ msg = .ok (s₂, events) →
      s₁.adapter.Reaches s₂.adapter →
      s₂.adapter.authHandler = late.foldl TokenCall.run s₀.adapter.authHandler →
      Runs server hmac s (trace ++ early.map .call ++
        [.request ⟨header, s₀.adapter.authHandler, now, events.any Event.isGuarded⟩] ++
        late.map .call) s₂

/-- The time of issue that the latest registration of a token gave. -/
def latestRegistration (token : Bytes) (trace : List Happening) : Option Int :=
  trace.foldl (fun latest e =>
    match e with
    | .call (.registerToken t issuedAt) => if t = token then some issuedAt else latest
    | _ => latest) none

/-- What the handler remembers of a trace. -/
structure Remembers (trace : List Happening) (h : AuthenticationHandler) : Prop where
  revoked : ∀ token, .call (.revokeToken token) ∈ trace → token ∈ h.revokedTokens
  issued : ∀ token issuedAt, latestRegistration token trace = some issuedAt →
    token ∈ h.revokedTokens ∨ h.tokenIssueTimes.lookup token = some issuedAt

theorem Remembers.start (h : AuthenticationHandler) : Remembers [] h where
  revoked _ hmem := absurd hmem List.not_mem_nil
  issued _ _ hlatest := by cases hlatest

theorem latestRegistration_concat (token : Bytes) (trace : List Happening) (e : Happening) :
    latestRegistration token (trace ++ [e]) =
      match e with
      | .call (.registerToken t issuedAt) =>
          if t = token then some issuedAt else latestRegistration token trace
      | _ => latestRegistration token trace := by
  rw [latestRegistration, List.foldl_append]
  rfl

theorem Remembers.request {trace : List Happening} {h : AuthenticationHandler}
    (hr : Remembers trace h) (r : Presented) : Remembers (trace ++ [.request r]) h where
  revoked token hmem := hr.revoked token (by simpa using hmem)
  issued token issuedAt hlatest := by
    rw [latestRegistration_concat] at hlatest
    exact hr.issued token issuedAt hlatest

/-- A call that neither revokes nor registers. -/
theorem Remembers.frame {trace : List Happening} {h h' : AuthenticationHandler} {c : TokenCall}
    (hr : Remembers trace h) (hrevoked : h'.revokedTokens = h.revokedTokens)
    (hissued : h'.tokenIssueTimes = h.tokenIssueTimes)
    (hc : ∀ token, c ≠ .revokeToken token ∧ ∀ issuedAt, c ≠ .registerToken token issuedAt) :
    Remembers (trace ++ [.call c]) h' where
  revoked token hmem := by
    rw [hrevoked]
    refine hr.revoked token ?_
    simpa [((hc token).1).symm] using hmem
  issued token issuedAt hlatest := by
    rw [hrevoked, hissued]
    refine hr.issued token issuedAt ?_
    rw [latestRegistration_concat] at hlatest
    cases c with
    | registerToken t i => exact absurd rfl ((hc t).2 i)
    | _ => exact hlatest

theorem Remembers.call {trace : List Happening} {h : AuthenticationHandler}
    (hr : Remembers trace h) (c : TokenCall) : Remembers (trace ++ [.call c]) (c.run h) := by
  cases c with
  | configure config => exact hr.frame rfl rfl (by simp)
  | setTokenSecret secretKey => exact hr.frame rfl rfl (by simp)
  | recordFailure clientId => exact hr.frame rfl rfl (by simp)
  | resetFailures clientId => exact hr.frame rfl rfl (by simp)
  | registerToken t i =>
      constructor
      · intro token hmem
        exact hr.revoked token (by simpa using hmem)
      · intro token issuedAt hlatest
        rw [latestRegistration_concat] at hlatest
        dsimp only at hlatest
        simp only [TokenCall.run, AuthenticationHandler.registerToken, List.lookup_cons,
          lookup_eraseKey]
        by_cases ht : t = token
        · rw [if_pos ht] at hlatest
          rw [ht, beq_self_eq_true]
          exact .inr hlatest
        · rw [if_neg ht] at hlatest
          rw [beq_eq_false_iff_ne.mpr (Ne.symm ht), if_neg (Ne.symm ht)]
          exact hr.issued token issuedAt hlatest
  | revokeToken t =>
      constructor
      · intro token hmem
        simp only [TokenCall.run, AuthenticationHandler.revokeToken, List.mem_insert_iff]
        rcases List.mem_append.mp hmem with hmem | hmem
        · exact .inr (hr.revoked token hmem)
        · exact .inl (by simpa using hmem)
      · intro token issuedAt hlatest
        rw [latestRegistration_concat] at hlatest
        simp only [TokenCall.run, AuthenticationHandler.revokeToken, List.mem_insert_iff,
          lookup_eraseKey]
        by_cases ht : token = t
        · exact .inl (.inl ht)
        · rw [if_neg ht]
          exact (hr.issued token issuedAt hlatest).imp_left .inr

/-- The handler remembers the trace, each request found a handler that remembered what
had happened before, and it only reached a handler if its header was allowed. -/
structure Guarded (trace : List Happening) (h : AuthenticationHandler) : Prop where
  remembers : Remembers trace h
  requests : ∀ before r, before ++ [.request r] <+: trace → Remembers before r.handler ∧
    (r.reached = true → (r.handler.validateRequest r.now r.header).allowed = true)

theorem Guarded.call {trace : List Happening} {h : AuthenticationHandler} (hg : Guarded trace h)
    (c : TokenCall) : Guarded (trace ++ [.call c]) (c.run h) where
  remembers := hg.remembers.call c
  requests before r hbegins := by
    rcases List.prefix_concat_iff.mp hbegins with heq | hbegins
    · simpa using congrArg List.getLast? heq
    · exact hg.requests before r hbegins

theorem Guarded.calls {trace : List Happening} {h : AuthenticationHandler} (hg : Guarded trace h)
    (cs : List TokenCall) : Guarded (trace ++ cs.map .call) (cs.foldl TokenCall.run h) := by
  induction cs generalizing trace h with
  | nil => simpa using hg
  | cons c cs ih =>
      rw [List.map_cons, List.append_cons, List.foldl_cons]
      exact ih (hg.call c)

theorem Guarded.request {trace : List Happening} {r : Presented}
    (hg : Guarded trace r.handler)
    (hreached : r.reached = true → (r.handler.validateRequest r.now r.header).allowed = true) :
    Guarded (trace ++ [.request r]) r.handler where
  remembers := hg.remembers.request r
  requests before r' hbegins := by
    rcases List.prefix_concat_iff.mp hbegins with heq | hbegins
    · obtain ⟨rfl, hr⟩ := List.append_inj' heq rfl
      cases hr
      exact ⟨hg.remembers, hreached⟩
    · exact hg.requests before r' hbegins

section runs

variable {σ : Type} {server : Server σ} {hmac : Bytes → Bytes → Digest}
variable {s s' s₀ : AdapterState σ} {msg : MCPMessage} {header : Bytes} {now later : Int}

/-- Behind the gate nothing happens unless the header was allowed. -/
theorem dispatch_allowed {events : List Event} (hon : s.adapter.authEnabled = true)
    (hrequest : msg.isRequest = true) (hid : msg.id ≠ none)
    (hextract : extractAuthToken server s msg = .ok (header, s₀))
    (hdispatch : dispatch server hmac now later s msg = .ok (s', events))
    (hguarded : events.any Event.isGuarded = true) :
    (s₀.adapter.authHandler.validateRequest now header).allowed = true := by
  unfold dispatch at hdispatch
  rw [hrequest, Bool.not_true, if_neg Bool.false_ne_true, if_neg hid, if_pos hon, hextract,
    ok_bind] at hdispatch
  dsimp only at hdispatch
  cases hauthenticate : authenticate hmac s₀.adapter.authHandler now later header with
  | ok u => exact (authenticate_eq_ok.mp hauthenticate).1
  | error message =>
      rw [hauthenticate] at hdispatch
      cases hdispatch
      cases hguarded

theorem Runs.authEnabled {trace : List Happening} (hrun : Runs server hmac s trace s')
    (hon : s.adapter.authEnabled = true) : s'.adapter.authEnabled = true := by
  induction hrun with
  | start => exact hon
  | call c _ hreaches _ ih => exact hreaches.authEnabled ih
  | other _ hreaches _ ih => exact hreaches.authEnabled ih
  | request early late _ _ _ _ _ _ hreaches _ ih => exact hreaches.authEnabled ih

theorem Runs.guarded {trace : List Happening} (hrun : Runs server hmac s trace s')
    (hon : s.adapter.authEnabled = true) : Guarded trace s'.adapter.authHandler := by
  induction hrun with
  | start =>
      refine ⟨.start _, fun before r hbegins => ?_⟩
      simp at hbegins
  | call c _ _ hhandler ih =>
      rw [hhandler]
      exact ih.call c
  | other _ _ hhandler ih =>
      rw [hhandler]
      exact ih
  | request early late hrun hrequest hid hextract hearly hdispatch _ hlate ih =>
      have hon' := hrun.authEnabled hon
      have hstart := ih.calls early
      rw [← hearly] at hstart
      rw [hlate]
      exact (hstart.request fun hreached =>
        dispatch_allowed hon' hrequest hid hextract hdispatch hreached).calls late

end runs

end MCPAdapter

namespace AuthenticationHandler

variable {h : AuthenticationHandler} {now : Int} {token : Bytes}

/-- An allowed credential is that of a token that is not revoked and, under a positive
lifetime, not expired. -/
theorem allowed_credential
    (hallowed : (h.validateRequest now (h.credential token)).allowed = true) :
    token ∉ h.revokedTokens ∧ (h.config.tokenTtl > 0 → h.isExpired now token = false) := by
  obtain ⟨-, -, -, -, hrevoked, hfresh⟩ := validateRequest_allowed_iff.mp hallowed
  have hchecked : checkedToken h.config (h.credential token) = token := by
    unfold checkedToken credential
    split_ifs
    · exact List.drop_left' rfl
    · rfl
  rw [hchecked] at hrevoked hfresh
  exact ⟨hrevoked, hfresh⟩

end AuthenticationHandler

namespace MCPAdapter

/-- No request with the credential of a token reaches a handler after the token has been
revoked, nor, under a positive lifetime, once its latest registration is older than that and
its age fits into 64 bits. -/
theorem reached_credential {σ : Type} (server : Server σ) (hmac : Bytes → Bytes → Digest)
    {s s' : AdapterState σ} {trace : List Happening} (hrun : Runs server hmac s trace s')
    (hon : s.adapter.authEnabled = true) {before : List Happening} {r : Presented}
    (hbegins : before ++ [.request r] <+: trace) {token : Bytes}
    (hheader : r.header = r.handler.credential token) (hreached : r.reached = true) :
    .call (.revokeToken token) ∉ before ∧
      (r.handler.config.tokenTtl > 0 → ∀ issuedAt, latestRegistration token before = some issuedAt →
        FitsInt64 (r.now - issuedAt) →
          r.now ≤ issuedAt + r.handler.config.tokenTtl * 1000000000) := by
  obtain ⟨hremembers, hallowed⟩ := (hrun.guarded hon).requests before r hbegins
  have hallowed' := hallowed hreached
  rw [hheader] at hallowed'
  obtain ⟨hrevoked, hexpired⟩ := AuthenticationHandler.allowed_credential hallowed'
  refine ⟨fun hmem => hrevoked (hremembers.revoked token hmem), ?_⟩
  intro httl issuedAt hlatest hfits
  have hlookup := (hremembers.issued token issuedAt hlatest).resolve_left hrevoked
  have hage := hexpired httl
  rw [AuthenticationHandler.isExpired, hlookup] at hage
  have hage' := of_decide_eq_false hage
  rw [int64_eq hfits] at hage'
  -- a lifetime beyond 64 bits is longer than any age within
  by_cases hlifetime : FitsInt64 (r.handler.config.tokenTtl * 1000000000)
  · rw [nanoseconds_eq hlifetime] at hage'
    omega
  · unfold FitsInt64 at hfits hlifetime
    omega

/-- The adapter of alice once her token is registered. -/
def registeredState (issuedAt : Int) : AdapterState Unit where
  adapter := { (guardedState false).adapter with
    authHandler := (guardedState false).adapter.authHandler.registerToken aliceToken issuedAt }
  server := ()

/-- The handler, the constants and the switches of an adapter, and whether a handler
was entered. -/
def seen (r : AdapterState Unit × List Event) : AuthenticationHandler × List Bytes × List Bool :=
  let a := r.1.adapter
  (a.authHandler, [a.serverName, a.serverVersion, a.protocolVersion],
    [a.authEnabled, a.rbacEnabled, r.2.any Event.isGuarded])

/-- The request of alice, who is registered, at the time 0. -/
def aliceRequest (issuedAt : Int) : Presented :=
  ⟨aliceToken, (registeredState issuedAt).adapter.authHandler, 0, true⟩

/-- Alice is registered and reaches a handler. -/
theorem runs_registered (issuedAt : Int)
    (hseen : (dispatch (Server.base Unit) secretHmac 0 0 (registeredState issuedAt)
      (callMessage aliceToken)).toOption.map seen =
        some (seen (registeredState issuedAt, [.listTools]))) :
    ∃ s', Runs (Server.base Unit) secretHmac (guardedState false)
      ([.call (.registerToken aliceToken issuedAt)] ++ [.request (aliceRequest issuedAt)]) s' := by
  have hregistered : Runs (Server.base Unit) secretHmac (guardedState false)
      [.call (.registerToken aliceToken issuedAt)] (registeredState issuedAt) :=
    .call (.registerToken aliceToken issuedAt) .start ⟨rfl, rfl, rfl, id, id⟩ rfl
  have hextract : extractAuthToken (Server.base Unit) (registeredState issuedAt)
      (callMessage aliceToken) = .ok (aliceToken, registeredState issuedAt) := by
    have hdefault : defaultAuthToken (callMessage aliceToken) = .ok aliceToken := by
      decide +kernel
    unfold extractAuthToken
    rw [hdefault]
    rfl
  cases hdispatch : dispatch (Server.base Unit) secretHmac 0 0 (registeredState issuedAt)
      (callMessage aliceToken) with
  | error fault =>
      rw [hdispatch] at hseen
      cases hseen
  | ok result =>
      rw [hdispatch] at hseen
      have hresult := Option.some.inj hseen
      simp only [seen, Prod.mk.injEq, List.cons.injEq, and_true] at hresult
      obtain ⟨hhandler, ⟨hname, hversion, hprotocol⟩, hauth, hrbac, hguarded⟩ := hresult
      have hrun := Runs.request [] [] hregistered rfl (Option.some_ne_none 1) hextract rfl hdispatch
        ⟨hname, hversion, hprotocol, hauth.trans, hrbac.trans⟩ hhandler
      rw [hguarded] at hrun
      exact ⟨_, hrun⟩

theorem reached_credential_of_alice :
    .call (.revokeToken aliceToken) ∉ [Happening.call (.registerToken aliceToken 0)] ∧
      0 ≤ 0 + (aliceRequest 0).handler.config.tokenTtl * 1000000000 := by
  obtain ⟨s', hrun⟩ := runs_registered 0 (by decide +kernel)
  have hheader : (aliceRequest 0).header = (aliceRequest 0).handler.credential aliceToken := rfl
  have h := reached_credential (Server.base Unit) secretHmac hrun rfl (List.prefix_refl _) hheader rfl
  exact ⟨h.1, h.2 (by decide) 0 rfl (by decide)⟩

/-- A token that is registered with the earliest time of the clock: its age overflows, and it is
let in although it is too old by far. -/
theorem reached_overaged :
    ∃ before r issuedAt s', Runs (Server.base Unit) secretHmac (guardedState false)
        (before ++ [.request r]) s' ∧
      r.header = r.handler.credential aliceToken ∧ r.reached = true ∧
      r.handler.config.tokenTtl > 0 ∧ latestRegistration aliceToken before = some issuedAt ∧
      issuedAt + r.handler.config.tokenTtl * 1000000000 < r.now := by
  obtain ⟨s', hrun⟩ := runs_registered (-9223372036854775808) (by decide +kernel)
  exact ⟨_, _, -9223372036854775808, s', hrun, rfl, rfl, by decide, rfl, by decide⟩

end MCPAdapter

end McpToolkit
