import McpToolkit.Adapter.Dispatch
/-!
# The authentication gate

With authentication enabled no handler runs and no tool is listed or called
before the token of the request has been accepted and, with RBAC, the policy
consulted.
-/

namespace McpToolkit

/-- Handlers, and the virtual functions that they call. -/
def Event.isGuarded : Event → Bool
  | .extractAuthToken => false
  | .output _ => false
  | _ => true

namespace MCPAdapter

section gate

variable {σ : Type} {server : Server σ} {s s' : AdapterState σ} {msg : MCPMessage}
variable {hmac : Bytes → Bytes → Digest} {now later : Int} {events : List Event}

/-- What the gate demands of a request with this token. -/
structure Admits (hmac : Bytes → Bytes → Digest) (now later : Int) (a : MCPAdapter)
    (msg : MCPMessage) (token userId : Bytes) : Prop where
  allowed : (a.authHandler.validateRequest now token).allowed = true
  decoded : a.authHandler.decodeToken hmac later token = userId
  known : userId ≠ []
  permitted : a.rbacEnabled = true → ∃ perm ∈ a.rbac.policy,
    spanText msg msg.method = .ok perm.action ∧ perm.requiredRole ≤ Role.user

theorem authenticate_eq_ok {h : AuthenticationHandler} {token : Bytes} {u : User} :
    authenticate hmac h now later token = .ok u ↔
      (h.validateRequest now token).allowed = true ∧ h.decodeToken hmac later token ≠ [] ∧
        u = { userId := h.decodeToken hmac later token, role := .user, authenticated := true } := by
  unfold authenticate
  cases htoken : token.isEmpty with
  | true =>
      rw [List.isEmpty_iff.mp htoken, AuthenticationHandler.validateRequest_nil]
      simp
  | false =>
      cases hallowed : (h.validateRequest now token).allowed with
      | false => simp [hallowed]
      | true =>
          cases hdecode : h.decodeToken hmac later token with
          | nil => simp [hallowed]
          | cons b t => simp [hallowed, eq_comm]

theorem extractAuthToken_reaches {token : Bytes} {s₁ : AdapterState σ}
    (h : extractAuthToken server s msg = .ok (token, s₁)) : s.adapter.Reaches s₁.adapter := by
  unfold extractAuthToken at h
  cases hserver : server.extractAuthToken with
  | none =>
      rw [hserver] at h
      dsimp only at h
      cases hdefault : defaultAuthToken msg with
      | error fault =>
          rw [hdefault] at h
          cases h
      | ok t =>
          rw [hdefault] at h
          cases h
          exact .refl _
  | some f =>
      rw [hserver] at h
      have hreaches := server.extractAuthToken_reaches f hserver s msg
      rw [Except.ok.inj h] at hreaches
      exact hreaches

theorem sendError_isGuarded (id : Option Int) (code : Int) (message : Bytes) :
    (sendError id code message).isGuarded = false := rfl

theorem callTool_not_mem_handleToolsList {name args : Bytes} {user : Option User} :
    .callTool name args user ∉ (handleToolsList server s msg).2 := by
  unfold handleToolsList
  dsimp only
  split <;> simp [toolsReply, sendError, send]

/-- A tool is called for the user whom the handler was given. -/
theorem Handles.user_eq {user : Option User} (h : Handles server s msg user s' events)
    {name args : Bytes} {caller : Option User} (hcall : .callTool name args caller ∈ events) :
    caller = user := by
  cases h with
  | initialized => simp [handleInitialize, send] at hcall
  | toolsList => exact absurd hcall callTool_not_mem_handleToolsList
  | callRefused code message => simp [sendError, send] at hcall
  | called name args =>
      simp only [resultReply, send, List.mem_cons, reduceCtorEq, List.not_mem_nil, false_or,
        or_false, Event.callTool.injEq] at hcall
      exact hcall.2.2

theorem Serves.of_guarded {u : User} {e : Event} (h : Serves server s msg u s' events)
    (he : e ∈ events) (hguarded : e.isGuarded = true) : Permitted s msg u ∧
      Handles server s msg (if s.adapter.authEnabled then some u else none) s' events := by
  cases h with
  | refused code message =>
      rw [List.mem_singleton.mp he, sendError_isGuarded] at hguarded
      cases hguarded
  | handled hpermitted hhandles => exact ⟨hpermitted, hhandles⟩

theorem Permitted.perm {u : User} (h : Permitted s msg u) (hauth : s.adapter.authEnabled = true)
    (hrbac : s.adapter.rbacEnabled = true) : ∃ perm ∈ s.adapter.rbac.policy,
      spanText msg msg.method = .ok perm.action ∧ perm.requiredRole ≤ u.role := by
  obtain ⟨name, hname, hcheck⟩ := h hauth hrbac
  obtain ⟨-, perm, hperm, rfl, hrole⟩ := RoleBasedAccessControl.checkPermission_iff.mp hcheck
  exact ⟨perm, hperm, hname, hrole⟩

/-- With authentication enabled, a handler or a virtual function behind the gate
runs only for a request whose token was accepted, and tools are called for the
user of the token. -/
theorem dispatch_gate (server : Server σ) (s : AdapterState σ) (hmac : Bytes → Bytes → Digest)
    (now later : Int) {json : Option Bytes} {maxBytes : Nat}
    (hparse : MCPMessage.parse json maxBytes = .ok msg) (hvalid : msg.valid = true)
    (hauth : s.adapter.authEnabled = true) :
    ∃ s' events, dispatch server hmac now later s msg = .ok (s', events) ∧
      ((∃ e ∈ events, e.isGuarded = true) → ∃ token s₁ userId,
        extractAuthToken server s msg = .ok (token, s₁) ∧
        Admits hmac now later s₁.adapter msg token userId ∧
        ∀ name args user, .callTool name args user ∈ events →
          user = some { userId, role := .user, authenticated := true }) := by
  obtain ⟨buf, -, -, hreadable⟩ := parse_readable hparse hvalid
  by_cases hdue : msg.isRequest = true ∧ msg.id ≠ none
  · obtain ⟨s', events, hrun, houtcome⟩ :=
      dispatch_dispatches server s hmac now later hreadable hdue.1 hdue.2
    refine ⟨s', events, hrun, ?_⟩
    rintro ⟨e, he, hguarded⟩
    cases houtcome with
    | unguarded hoff _ =>
        rw [hauth] at hoff
        cases hoff
    | denied _ _ _ =>
        rcases List.mem_cons.mp he with rfl | he
        · cases hguarded
        · rw [List.mem_singleton.mp he, sendError_isGuarded] at hguarded
          cases hguarded
    | @admitted s₁ _ token u events _ htoken hauthenticate hserves =>
        have hon : s₁.adapter.authEnabled = true := (extractAuthToken_reaches htoken).authEnabled hauth
        obtain ⟨hallowed, hknown, rfl⟩ := authenticate_eq_ok.mp hauthenticate
        have he : e ∈ events := by
          rcases List.mem_cons.mp he with rfl | he
          · cases hguarded
          · exact he
        obtain ⟨hpermitted, hhandles⟩ := hserves.of_guarded he hguarded
        refine ⟨token, s₁, _, htoken, ⟨hallowed, rfl, hknown, hpermitted.perm hon⟩, ?_⟩
        intro name args user hcall
        rw [if_pos hon] at hhandles
        exact hhandles.user_eq ((List.mem_cons.mp hcall).resolve_left (by simp))
  · refine ⟨s, [], dispatch_ignores server s hmac now later hdue, ?_⟩
    rintro ⟨e, he, -⟩
    cases he

end gate

/-! ## A request of alice -/

/-- HMAC-SHA256 under the key `secret` of `alice` and of `Bearer alice`. -/
def secretHmac (_ text : Bytes) : Digest :=
  if text = ascii "alice" then
    ⟨[67, 96, 198, 123, 200, 16, 37, 17, 64, 68, 87, 141, 124, 78, 142, 15, 2, 253, 12, 174, 153,
      242, 45, 96, 51, 144, 232, 249, 220, 152, 136, 248], rfl⟩
  else
    ⟨[99, 90, 57, 190, 5, 178, 112, 32, 26, 78, 84, 244, 159, 20, 0, 71, 73, 18, 12, 122, 173, 151,
      21, 131, 117, 199, 145, 3, 61, 82, 145, 202], rfl⟩

def aliceToken : Bytes := ascii "alice.Q2DGe8gQJRFARFeNfE6ODwL9DK6Z8i1gM5Do+dyYiPg="

/-- An adapter with authentication, and RBAC for `tools/call`. -/
def guardedState (requireBearerPrefix : Bool) : AdapterState Unit where
  adapter := {
    authHandler := {
      config := { requireBearerPrefix }, configured := true, tokenSecret := ascii "secret" }
    rbac := { policy := [⟨.user, ascii "tools/call"⟩] }
    authEnabled := true
    rbacEnabled := true }
  server := ()

/-- A call of the tool `t` that presents a header. -/
def callLine (header : Bytes) : Bytes :=
  ascii "\x7b\"id\":1,\"method\":\"tools/call\",\"params\":\x7b\"auth_token\":\"" ++ header ++
    ascii "\",\"name\":\"t\"\x7d\x7d"

def callMessage (header : Bytes) : MCPMessage where
  method := ⟨some 18, 10⟩
  id := some 1
  params := ⟨some 39, header.length + 28⟩
  isRequest := true
  valid := true
  rawInput := some (callLine header)
  rawLen := (callLine header).length

theorem parse_callLine :
    MCPMessage.parse (some (callLine aliceToken)) kDefaultMaxBytes = .ok (callMessage aliceToken) := by
  decide +kernel

theorem dispatch_gate_of_alice :
    ∃ s' events,
      dispatch (Server.base Unit) secretHmac 0 0 (guardedState false) (callMessage aliceToken) =
        .ok (s', events) ∧ (∃ e ∈ events, e.isGuarded = true) ∧
      ∃ token s₁ userId, extractAuthToken (Server.base Unit) (guardedState false)
          (callMessage aliceToken) = .ok (token, s₁) ∧
        Admits secretHmac 0 0 s₁.adapter (callMessage aliceToken) token userId ∧
        ∀ name args user, .callTool name args user ∈ events →
          user = some { userId, role := .user, authenticated := true } := by
  obtain ⟨s', events, hrun, hgate⟩ := dispatch_gate (Server.base Unit) (guardedState false)
    secretHmac 0 0 parse_callLine rfl rfl
  have hcomputed : (dispatch (Server.base Unit) secretHmac 0 0 (guardedState false)
      (callMessage aliceToken)).toOption.map (·.2.any Event.isGuarded) = some true := by
    decide +kernel
  rw [hrun] at hcomputed
  have hguarded := List.any_eq_true.mp (Option.some.inj hcomputed)
  exact ⟨s', events, hrun, hguarded, hgate hguarded⟩

end MCPAdapter

end McpToolkit
