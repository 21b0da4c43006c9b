import McpToolkit.Adapter.Credentials
/-!
# Whom a header stands for

What the handler answers is decided by what has been called on it: the latest
configuration, the latest secret, the tokens that were ever revoked and the latest
registration of the others.
-/

namespace McpToolkit

/-! ## The latest -/

section latest

variable {α β : Type}

/-- The latest of what some of the elements say. -/
def latest (f : α → Option β) (past : List α) : Option β := (past.filterMap f).getLast?

theorem latest_concat (f : α → Option β) (past : List α) (a : α) :
    latest f (past ++ [a]) = (f a).or (latest f past) := by
  rw [latest, List.filterMap_append, latest]
  cases hf : f a with
  | none => rw [List.filterMap_cons_none hf, List.filterMap_nil, List.append_nil, Option.none_or]
  | some b =>
      rw [List.filterMap_cons_some hf, List.filterMap_nil, List.getLast?_concat, Option.some_or]

end latest

namespace TokenCall

def config? : TokenCall → Option AuthConfig
  | .configure config => some config
  | _ => none

def secret? : TokenCall → Option Bytes
  | .setTokenSecret secretKey => some secretKey
  | _ => none

/-- The time of issue that a registration gives a token. -/
def issue? (token : Bytes) : TokenCall → Option Int
  | .registerToken t issuedAt => if t = token then some issuedAt else none
  | _ => none

end TokenCall

namespace AuthenticationHandler

open TokenCall

/-! ## One call -/

section call

variable (h : AuthenticationHandler) (c : TokenCall)

theorem run_configured : (c.run h).configured = (c.config?.isSome || h.configured) := by
  cases c <;> rfl

theorem run_config : (c.run h).config = c.config?.getD h.config := by
  cases c <;> rfl

theorem run_tokenSecret : (c.run h).tokenSecret = c.secret?.getD h.tokenSecret := by
  cases c <;> rfl

theorem mem_run_revokedTokens {token : Bytes} :
    token ∈ (c.run h).revokedTokens ↔ c = .revokeToken token ∨ token ∈ h.revokedTokens := by
  cases c with
  | revokeToken t =>
      rw [TokenCall.run, revokeToken, List.mem_insert_iff, TokenCall.revokeToken.injEq, eq_comm]
  | _ => exact (or_iff_right TokenCall.noConfusion).symm

/-- Only a revocation takes the time of issue away. -/
theorem lookup_run_tokenIssueTimes {token : Bytes} (hc : c ≠ .revokeToken token) :
    (c.run h).tokenIssueTimes.lookup token =
      (c.issue? token).or (h.tokenIssueTimes.lookup token) := by
  cases c with
  | registerToken t issuedAt =>
      rw [TokenCall.run, registerToken, List.lookup_cons, lookup_eraseKey, issue?]
      by_cases ht : t = token
      · rw [ht, beq_self_eq_true, if_pos rfl, if_pos rfl]
        rfl
      · rw [beq_eq_false_iff_ne.mpr (Ne.symm ht), if_neg (Ne.symm ht), if_neg ht, Option.none_or]
  | revokeToken t =>
      have ht : token ≠ t := fun heq => hc (congrArg TokenCall.revokeToken heq.symm)
      rw [TokenCall.run, revokeToken, lookup_eraseKey, if_neg ht]
      rfl
  | _ => rfl

end call

/-! ## Any calls -/

/-- What a fresh handler has kept of the calls on it. -/
structure Keeps (calls : List TokenCall) (h : AuthenticationHandler) : Prop where
  configured : h.configured = (latest config? calls).isSome
  config : h.config = (latest config? calls).getD {}
  secret : h.tokenSecret = (latest secret? calls).getD []
  revoked : ∀ token, token ∈ h.revokedTokens ↔ .revokeToken token ∈ calls
  issued : ∀ token, .revokeToken token ∉ calls →
    h.tokenIssueTimes.lookup token = latest (issue? token) calls

theorem Keeps.start : Keeps [] {} where
  configured := rfl
  config := rfl
  secret := rfl
  revoked _ := iff_of_false List.not_mem_nil List.not_mem_nil
  issued _ _ := rfl

theorem Keeps.concat {calls : List TokenCall} {h : AuthenticationHandler} (hk : Keeps calls h)
    (c : TokenCall) : Keeps (calls ++ [c]) (c.run h) where
  configured := by
    rw [run_configured, hk.configured, latest_concat, Option.isSome_or]
  config := by
    rw [run_config, hk.config, latest_concat]
    cases c.config? <;> rfl
  secret := by
    rw [run_tokenSecret, hk.secret, latest_concat]
    cases c.secret? <;> rfl
  revoked token := by
    rw [mem_run_revokedTokens, hk.revoked, List.mem_append, List.mem_singleton, or_comm, eq_comm]
  issued token hnot := by
    rw [List.mem_append, List.mem_singleton, not_or] at hnot
    rw [lookup_run_tokenIssueTimes h c (Ne.symm hnot.2), hk.issued token hnot.1, latest_concat]

/-- The handler after some calls. -/
def afterCalls (calls : List TokenCall) : AuthenticationHandler := calls.foldl TokenCall.run {}

theorem afterCalls_concat (calls : List TokenCall) (c : TokenCall) :
    afterCalls (calls ++ [c]) = c.run (afterCalls calls) := by
  rw [afterCalls, List.foldl_append]
  rfl

theorem keeps_afterCalls (calls : List TokenCall) : Keeps calls (afterCalls calls) := by
  induction calls using List.reverseRecOn with
  | nil => exact .start
  | append_singleton calls c ih =>
      rw [afterCalls_concat]
      exact ih.concat c

/-! ## Headers -/

/-- A token that was never revoked and, under a positive lifetime, is not too old since its
latest registration, if it was ever registered.  Age and lifetime are counted in 64 bits. -/
structure InForce (calls : List TokenCall) (config : AuthConfig) (now : Int) (token : Bytes) :
    Prop where
  notRevoked : .revokeToken token ∉ calls
  fresh : config.tokenTtl > 0 → ∀ issuedAt ∈ latest (issue? token) calls,
    int64 (now - issuedAt) ≤ nanoseconds config.tokenTtl

theorem Keeps.inForce_iff {calls : List TokenCall} {h : AuthenticationHandler}
    (hk : Keeps calls h) {now : Int} {token : Bytes} :
    InForce calls h.config now token ↔
      token ∉ h.revokedTokens ∧ (h.config.tokenTtl > 0 → h.isExpired now token = false) := by
  have hexpired : .revokeToken token ∉ calls → (h.isExpired now token = false ↔
      ∀ issuedAt ∈ latest (issue? token) calls,
        int64 (now - issuedAt) ≤ nanoseconds h.config.tokenTtl) := by
    intro hnot
    rw [isExpired, hk.issued token hnot]
    cases latest (issue? token) calls with
    | none => simp
    | some issuedAt =>
        simp only [Option.mem_def, Option.some.injEq, forall_eq', decide_eq_false_iff_not,
          gt_iff_lt, not_lt]
  constructor
  · intro hforce
    have hnot := hforce.notRevoked
    exact ⟨fun hmem => hnot ((hk.revoked token).mp hmem),
      fun httl => (hexpired hnot).mpr (hforce.fresh httl)⟩
  · rintro ⟨hrevoked, hfresh⟩
    have hnot : .revokeToken token ∉ calls := fun hmem => hrevoked ((hk.revoked token).mpr hmem)
    exact ⟨hnot, fun httl => (hexpired hnot).mp (hfresh httl)⟩

/-- What makes a header stand for a user, given the latest configuration and secret. -/
structure StandsFor (hmac : Bytes → Bytes → Digest) (calls : List TokenCall) (now later : Int)
    (header userId : Bytes) (config : AuthConfig) (secret : Bytes) : Prop where
  configured : latest config? calls = some config
  secretSet : latest secret? calls = some secret
  secretNonempty : secret ≠ []
  known : userId ≠ []
  pointFree : point ∉ userId
  /-- The header is the token of the user as a whole, so that a prefix that is demanded is
  part of the name. -/
  genuine : header = tokenOf hmac secret userId
  prefixed : config.requireBearerPrefix = true → kBearerPrefix <+: userId
  long : config.minTokenLength ≤ (checkedToken config header).length
  zeroFree : 0 ∉ checkedToken config header
  checkedInForce : InForce calls config now (checkedToken config header)
  inForce : InForce calls config later header

section stands

variable {hmac : Bytes → Bytes → Digest} {calls : List TokenCall} {h : AuthenticationHandler}
variable {now later : Int} {header userId : Bytes}

theorem Keeps.config_eq (hk : Keeps calls h) {config : AuthConfig}
    (hconfig : latest config? calls = some config) : h.config = config := by
  rw [hk.config, hconfig, Option.getD_some]

theorem Keeps.secret_eq (hk : Keeps calls h) {secret : Bytes}
    (hsecret : latest secret? calls = some secret) : h.tokenSecret = secret := by
  rw [hk.secret, hsecret, Option.getD_some]

theorem Keeps.exists_config (hk : Keeps calls h) (hconfigured : h.configured = true) :
    ∃ config, latest config? calls = some config := by
  rw [hk.configured] at hconfigured
  exact Option.isSome_iff_exists.mp hconfigured

theorem Keeps.exists_secret (hk : Keeps calls h) (hsecret : h.tokenSecret ≠ []) :
    ∃ secret, latest secret? calls = some secret := by
  rw [hk.secret] at hsecret
  cases hlatest : latest secret? calls with
  | none =>
      rw [hlatest, Option.getD_none] at hsecret
      exact absurd rfl hsecret
  | some secret => exact ⟨secret, rfl⟩

/-- Both checks pass a header that stands for a user. -/
theorem StandsFor.accepted {config : AuthConfig} {secret : Bytes} (hk : Keeps calls h)
    (hs : StandsFor hmac calls now later header userId config secret) :
    (h.validateRequest now header).allowed = true ∧ h.Names hmac later header userId := by
  have hconfigured : h.configured = true := by
    rw [hk.configured, hs.configured, Option.isSome_some]
  have hchecked := hs.checkedInForce
  have hforce := hs.inForce
  rw [← hk.config_eq hs.configured, hk.inForce_iff] at hchecked hforce
  have hgenuine := hs.genuine
  have hnonempty := hs.secretNonempty
  rw [← hk.secret_eq hs.secretSet] at hgenuine hnonempty
  refine ⟨?_, hnonempty, hs.pointFree, hgenuine, hforce.1, hforce.2⟩
  rw [validateRequest_allowed_iff]
  refine ⟨hconfigured, ?_, fun hrequired => ?_, ?_, hchecked⟩
  · rw [hs.genuine, tokenOf]
    exact List.append_ne_nil_of_right_ne_nil _ (List.cons_ne_nil _ _)
  · rw [hk.config_eq hs.configured] at hrequired
    have hbegins := hs.prefixed hrequired
    have hlen := hbegins.length_le
    rw [hs.genuine, tokenOf, List.length_append, List.length_cons]
    refine ⟨hbegins.trans (List.prefix_append _ _), ?_⟩
    have hseven : kBearerPrefix.length = kBearerPrefixLen := rfl
    omega
  · rw [hk.config_eq hs.configured]
    exact ⟨hs.long, hs.zeroFree⟩

/-- Nothing else passes both. -/
theorem Keeps.standsFor (hk : Keeps calls h)
    (hallowed : (h.validateRequest now header).allowed = true)
    (hnames : h.Names hmac later header userId) (hknown : userId ≠ []) :
    ∃ config secret, StandsFor hmac calls now later header userId config secret := by
  rw [validateRequest_allowed_iff] at hallowed
  obtain ⟨hconfigured, -, hbearer, ⟨hlong, hzero⟩, hchecked⟩ := hallowed
  obtain ⟨config, hconfig⟩ := hk.exists_config hconfigured
  obtain ⟨secret, hsecret⟩ := hk.exists_secret hnames.secret
  have hforce : InForce calls h.config later header :=
    hk.inForce_iff.mpr ⟨hnames.notRevoked, hnames.fresh⟩
  have hcheckedForce := hk.inForce_iff.mpr hchecked
  have hgenuine := hnames.genuine
  have hnonempty := hnames.secret
  rw [hk.secret_eq hsecret] at hgenuine hnonempty
  rw [hk.config_eq hconfig] at hbearer hlong hzero hforce hcheckedForce
  have hbearer : config.requireBearerPrefix = true → kBearerPrefix <+: userId := by
    intro hrequired
    have hheader := (hbearer hrequired).1
    rwa [hgenuine, tokenOf, prefix_append_cons_iff (by decide)] at hheader
  exact ⟨config, secret, hconfig, hsecret, hnonempty, hknown, hnames.pointFree, hgenuine, hbearer,
    hlong, hzero, hcheckedForce, hforce⟩

end stands

end AuthenticationHandler

namespace MCPAdapter

open AuthenticationHandler TokenCall

theorem authenticate_afterCalls {hmac : Bytes → Bytes → Digest} {calls : List TokenCall}
    {now later : Int} {header : Bytes} {u : User} :
    authenticate hmac (afterCalls calls) now later header = .ok u ↔
      ∃ config secret, StandsFor hmac calls now later header u.userId config secret ∧
        u = { userId := u.userId, role := .user, authenticated := true } := by
  have hkeeps := keeps_afterCalls calls
  rw [authenticate_eq_ok]
  constructor
  · rintro ⟨hallowed, hknown, rfl⟩
    obtain ⟨config, secret, hstands⟩ :=
      hkeeps.standsFor hallowed (names_of_decodeToken rfl hknown) hknown
    exact ⟨config, secret, hstands, rfl⟩
  · rintro ⟨config, secret, hstands, hu⟩
    obtain ⟨hallowed, hnames⟩ := hstands.accepted hkeeps
    have hdecode := (decodeToken_eq_iff hstands.known).mpr hnames
    rw [hdecode]
    exact ⟨hallowed, hstands.known, hu⟩

/-! ## Runs -/

/-- The calls of a trace. -/
def callsOf (trace : List Happening) : List TokenCall :=
  trace.filterMap fun e =>
    match e with
    | .call c => some c
    | .request _ => none

theorem callsOf_append (trace trace' : List Happening) :
    callsOf (trace ++ trace') = callsOf trace ++ callsOf trace' := List.filterMap_append

section runs

variable {σ : Type} {server : Server σ} {hmac : Bytes → Bytes → Digest}
variable {s s' s₀ : AdapterState σ} {msg : MCPMessage} {header : Bytes} {now later : Int}
variable {initial : List TokenCall} {trace : List Happening}

/-- The handler comes from the calls, and the header of each request that has reached a
handler stands for a user by the calls before it. -/
structure Vouched (hmac : Bytes → Bytes → Digest) (initial : List TokenCall)
    (trace : List Happening) (h : AuthenticationHandler) : Prop where
  handler : h = afterCalls (initial ++ callsOf trace)
  requests : ∀ before r, before ++ [.request r] <+: trace → r.reached = true →
    ∃ later userId config secret,
      StandsFor hmac (initial ++ callsOf before) r.now later r.header userId config secret

theorem Vouched.call {h : AuthenticationHandler} (hv : Vouched hmac initial trace h)
    (c : TokenCall) : Vouched hmac initial (trace ++ [.call c]) (c.run h) where
  handler := by
    have hcalls : callsOf (trace ++ [.call c]) = callsOf trace ++ [c] := callsOf_append _ _
    rw [hcalls, ← List.append_assoc, afterCalls_concat, ← hv.handler]
  requests before r hbegins := by
    rcases List.prefix_concat_iff.mp hbegins with heq | hbegins
    · cases (List.append_inj' heq rfl).2
    · exact hv.requests before r hbegins

theorem Vouched.calls {h : AuthenticationHandler} (hv : Vouched hmac initial trace h)
    (cs : List TokenCall) :
    Vouched hmac initial (trace ++ cs.map .call) (cs.foldl TokenCall.run h) := by
  induction cs generalizing trace h with
  | nil =>
      rw [List.map_nil, List.append_nil]
      exact hv
  | cons c cs ih =>
      rw [List.map_cons, List.append_cons, List.foldl_cons]
      exact ih (hv.call c)

theorem Vouched.request {r : Presented} (hv : Vouched hmac initial trace r.handler)
    (hreached : r.reached = true → ∃ later u,
      authenticate hmac r.handler r.now later r.header = .ok u) :
    Vouched hmac initial (trace ++ [.request r]) r.handler where
  handler := by
    have hcalls : callsOf (trace ++ [.request r]) = callsOf trace ++ [] := callsOf_append _ _
    rw [hcalls, List.append_nil]
    exact hv.handler
  requests before r' hbegins := by
    rcases List.prefix_concat_iff.mp hbegins with heq | hbegins
    · obtain ⟨rfl, hr⟩ := List.append_inj' heq rfl
      cases hr
      intro hreached'
      obtain ⟨later, u, hauthenticate⟩ := hreached hreached'
      rw [hv.handler, authenticate_afterCalls] at hauthenticate
      obtain ⟨config, secret, hstands, -⟩ := hauthenticate
      exact ⟨later, u.userId, config, secret, hstands⟩
    · exact hv.requests before r' hbegins

/-- Behind the gate nothing happens for a header that is not authenticated. -/
theorem dispatch_authenticated {events : List Event} (hon : s.adapter.authEnabled = true)
    (hrequest : msg.isRequest = true) (hid : msg.id ≠ none)
    (hextract : extractAuthToken server s msg = .ok (header, s₀))
    (hdispatch : dispatch server hmac now later s msg = .ok (s', events))
    (hguarded : events.any Event.isGuarded = true) :
    ∃ u, authenticate hmac s₀.adapter.authHandler now later header = .ok u := by
  unfold dispatch at hdispatch
  rw [hrequest, Bool.not_true, if_neg Bool.false_ne_true, if_neg hid, if_pos hon, hextract,
    ok_bind] at hdispatch
  dsimp only at hdispatch
  cases hauthenticate : authenticate hmac s₀.adapter.authHandler now later header with
  | ok u => exact ⟨u, rfl⟩
  | error message =>
      rw [hauthenticate] at hdispatch
      cases hdispatch
      cases hguarded

theorem Runs.vouched (hrun : Runs server hmac s trace s') (hon : s.adapter.authEnabled = true)
    (hinitial : s.adapter.authHandler = afterCalls initial) :
    Vouched hmac initial trace s'.adapter.authHandler := by
  induction hrun with
  | start =>
      refine ⟨?_, fun before r hbegins => ?_⟩
      · rw [hinitial]
        exact congrArg afterCalls (List.append_nil initial).symm
      · exact absurd (List.prefix_nil.mp hbegins) (List.concat_ne_nil _ _)
  | call c _ _ hhandler ih =>
      rw [hhandler]
      exact ih.call c
  | other _ _ hhandler ih =>
      rw [hhandler]
      exact ih
  | @request trace s₁ s₀ s₂ msg header now later events early late hrun hrequest hid hextract
      hearly hdispatch _ hlate ih =>
      have hon' := hrun.authEnabled hon
      have hstart := ih.calls early
      rw [← hearly] at hstart
      rw [hlate]
      refine (hstart.request (r := ⟨header, s₀.adapter.authHandler, now, _⟩)
        fun hreached => ⟨later, ?_⟩).calls late
      exact dispatch_authenticated hon' hrequest hid hextract hdispatch hreached

end runs

/-- After any calls on a fresh handler, a header is authenticated as a user if and only if
it stands for that user by these calls.  So in every run of an adapter with authentication,
each request that reaches a handler has a header that stands for a user by the calls
before it. -/
theorem authenticates_iff (hmac : Bytes → Bytes → Digest) (initial : List TokenCall) :
    (∀ now later header u, authenticate hmac (afterCalls initial) now later header = .ok u ↔
      ∃ config secret, StandsFor hmac initial now later header u.userId config secret ∧
        u = { userId := u.userId, role := .user, authenticated := true }) ∧
    ∀ {σ : Type} (server : Server σ) (s s' : AdapterState σ) (trace : List Happening),
      Runs server hmac s trace s' → s.adapter.authEnabled = true →
      s.adapter.authHandler = afterCalls initial →
      ∀ before r, before ++ [.request r] <+: trace → r.reached = true →
        ∃ later userId config secret,
          StandsFor hmac (initial ++ callsOf before) r.now later r.header userId config secret :=
  ⟨fun _ _ _ _ => authenticate_afterCalls,
    fun _ _ _ _ hrun hon hinitial => (hrun.vouched hon hinitial).requests⟩

/-- The calls that set up the adapter of alice. -/
def aliceSetup : List TokenCall :=
  [.configure { requireBearerPrefix := false }, .setTokenSecret (ascii "secret")]

/-- The request of alice reaches a handler. -/
theorem runs_alice : ∃ s' r, Runs (Server.base Unit) secretHmac (guardedState false)
    [.request r] s' ∧ r.header = aliceToken ∧ r.reached = true := by
  have hextract : extractAuthToken (Server.base Unit) (guardedState false)
      (callMessage aliceToken) = .ok (aliceToken, guardedState false) := by
    have hdefault : defaultAuthToken (callMessage aliceToken) = .ok aliceToken := by
      decide +kernel
    unfold extractAuthToken
    rw [hdefault]
    rfl
  have hseen : (dispatch (Server.base Unit) secretHmac 0 0 (guardedState false)
      (callMessage aliceToken)).toOption.map seen =
        some (seen (guardedState false, [.listTools])) := by
    decide +kernel
  cases hdispatch : dispatch (Server.base Unit) secretHmac 0 0 (guardedState false)
      (callMessage aliceToken) with
  | error fault =>
      rw [hdispatch] at hseen
      cases hseen
  | ok result =>
      rw [hdispatch] at hseen
      have hresult := Option.some.inj hseen
      simp only [seen, Prod.mk.injEq, List.cons.injEq, and_true] at hresult
      obtain ⟨hhandler, ⟨hname, hversion, hprotocol⟩, hauth, hrbac, hguarded⟩ := hresult
      exact ⟨_, _, .request [] [] .start rfl (Option.some_ne_none 1) hextract rfl hdispatch
        ⟨hname, hversion, hprotocol, hauth.trans, hrbac.trans⟩ hhandler, rfl, hguarded⟩

theorem authenticates_iff_of_alice : ∃ s' r later userId config secret,
    Runs (Server.base Unit) secretHmac (guardedState false) [.request r] s' ∧
      StandsFor secretHmac aliceSetup r.now later aliceToken userId config secret := by
  obtain ⟨s', r, hruns, hheader, hreached⟩ := runs_alice
  obtain ⟨later, userId, config, secret, hstands⟩ := (authenticates_iff secretHmac aliceSetup).2
    (Server.base Unit) _ s' _ hruns rfl rfl [] r (List.prefix_refl _) hreached
  rw [hheader] at hstands
  exact ⟨s', r, later, userId, config, secret, hruns, hstands⟩

end MCPAdapter

end McpToolkit
