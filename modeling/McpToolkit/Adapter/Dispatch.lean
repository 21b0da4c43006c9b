import McpToolkit.Adapter.Messages
/-!
# What a message leads to

The outcomes of `dispatch` on a parsed message, one constructor for each, with
what was checked on the way.  The theorems about the adapter are case analyses
over them.
-/

namespace McpToolkit

namespace MCPAdapter

section outcomes

variable {σ : Type} (server : Server σ) (s : AdapterState σ) (msg : MCPMessage)

/-- What a handler does once it is entered. -/
inductive Handles (user : Option User) : AdapterState σ → List Event → Prop where
  | initialized : Handles user s (handleInitialize s.adapter msg)
  | toolsList : Handles user (handleToolsList server s msg).1 (handleToolsList server s msg).2
  | callRefused (code : Int) (message : Bytes) :
      Handles user s [.handleToolsCall, sendError msg.id code message]
  | called (name args : Bytes) : Handles user (server.callTool s name args user).2
      [.handleToolsCall, .callTool name args user,
        resultReply msg.id (server.callTool s name args user).1]

/-- The policy lets the user call the method. -/
def Permitted (u : User) : Prop :=
  s.adapter.authEnabled = true → s.adapter.rbacEnabled = true →
    ∃ name, spanText msg msg.method = .ok name ∧ s.adapter.rbac.checkPermission u name = true

/-- What becomes of the request of a user. -/
inductive Serves (u : User) : AdapterState σ → List Event → Prop where
  | refused (code : Int) (message : Bytes) : Serves u s [sendError msg.id code message]
  | handled {s' : AdapterState σ} {events : List Event} : Permitted s msg u →
      Handles server s msg (if s.adapter.authEnabled then some u else none) s' events →
      Serves u s' events

/-- What becomes of a request. -/
inductive Dispatches (hmac : Bytes → Bytes → Digest) (now later : Int) :
    AdapterState σ → List Event → Prop where
  | unguarded {s' : AdapterState σ} {events : List Event} : s.adapter.authEnabled = false →
      Serves server s msg {} s' events → Dispatches hmac now later s' events
  | denied {s₁ : AdapterState σ} {token message : Bytes} : s.adapter.authEnabled = true →
      extractAuthToken server s msg = .ok (token, s₁) →
      authenticate hmac s₁.adapter.authHandler now later token = .error message →
      Dispatches hmac now later s₁ [.extractAuthToken, sendError msg.id (-32603) message]
  | admitted {s₁ s' : AdapterState σ} {token : Bytes} {u : User} {events : List Event} :
      s.adapter.authEnabled = true → extractAuthToken server s msg = .ok (token, s₁) →
      authenticate hmac s₁.adapter.authHandler now later token = .ok u →
      Serves server s₁ msg u s' events →
      Dispatches hmac now later s' (.extractAuthToken :: events)

end outcomes

section dispatch

variable {σ : Type} (server : Server σ) (s : AdapterState σ) {buf : Bytes} {msg : MCPMessage}
variable (hmac : Bytes → Bytes → Digest) (now later : Int)

/-- A call is refused before any tool runs, or the tool runs once. -/
theorem handleToolsCall_handles (h : msg.Readable buf) (user : Option User) :
    ∃ s' events, handleToolsCall server s msg user = .ok (s', events) ∧
      Handles server s msg user s' events := by
  obtain ⟨json, hjson, hdangling⟩ := h.params_text
  obtain ⟨ok, name, toolName, hname, htext⟩ := extractString_text json (ascii "name")
  obtain ⟨args, hargs⟩ := argsJson_ok hdangling
  unfold handleToolsCall
  rw [hjson]
  simp only [ok_bind, hname, hargs, htext]
  split_ifs
  · exact ⟨_, _, rfl, .callRefused _ _⟩
  · exact ⟨_, _, rfl, .callRefused _ _⟩
  · exact ⟨_, _, rfl, .callRefused _ _⟩
  · exact ⟨_, _, rfl, .callRefused _ _⟩
  · exact ⟨_, _, rfl, .called _ _⟩

theorem methodIs_ok (h : msg.Readable buf) (name : Bytes) :
    ∃ b, methodIs msg name = .ok b := by
  obtain ⟨t, ht⟩ := h.method_text
  unfold methodIs
  rw [ht]
  split_ifs
  · exact ⟨false, rfl⟩
  · exact ⟨_, rfl⟩

theorem authorized_serves (h : msg.Readable buf) (u : User) :
    ∃ s' events, authorized server s msg u = .ok (s', events) ∧ Serves server s msg u s' events := by
  obtain ⟨methodName, hmethod⟩ := h.method_text
  obtain ⟨first, hfirst⟩ := methodIs_ok h (ascii "initialize")
  obtain ⟨list, hlist⟩ := methodIs_ok h (ascii "tools/list")
  obtain ⟨call, hcall⟩ := methodIs_ok h (ascii "tools/call")
  obtain ⟨s₁, called, hhandler, hhandles⟩ := handleToolsCall_handles server s h
    (if s.adapter.authEnabled then some u else none)
  have hmethods : Permitted s msg u → ∃ s' events, (do
      if first then return (s, handleInitialize s.adapter msg)
      if list then return handleToolsList server s msg
      if call then return (s₁, called)
      return (s, [sendError msg.id (-32601) (ascii "Method not found")]) :
        Except Fault (AdapterState σ × List Event)) = .ok (s', events) ∧
      Serves server s msg u s' events := by
    intro hpermitted
    cases first
    · cases list
      · cases call
        · exact ⟨_, _, rfl, .refused _ _⟩
        · exact ⟨_, _, rfl, .handled hpermitted hhandles⟩
      · exact ⟨_, _, rfl, .handled hpermitted .toolsList⟩
    · exact ⟨_, _, rfl, .handled hpermitted .initialized⟩
  unfold authorized
  rw [hmethod, hfirst, hlist, hcall, hhandler]
  simp only [ok_bind]
  by_cases hrbac : (s.adapter.rbacEnabled && s.adapter.authEnabled) = true
  · rw [if_pos hrbac]
    cases hcheck : s.adapter.rbac.checkPermission u methodName with
    | false => exact ⟨_, _, rfl, .refused _ _⟩
    | true =>
        rw [Bool.not_true, if_neg Bool.false_ne_true]
        exact hmethods fun _ _ => ⟨methodName, hmethod, hcheck⟩
  · rw [if_neg hrbac]
    refine hmethods fun hauth hon => absurd ?_ hrbac
    rw [hauth, hon]
    rfl

theorem extractAuthToken_ok (h : msg.Readable buf) :
    ∃ token s₁, extractAuthToken server s msg = .ok (token, s₁) := by
  unfold extractAuthToken
  cases server.extractAuthToken with
  | none =>
      obtain ⟨token, htoken⟩ := defaultAuthToken_ok h
      exact ⟨token, s, by rw [htoken]; rfl⟩
  | some f => exact ⟨(f s msg).1, (f s msg).2, rfl⟩

/-- A request is served, and in one of these ways. -/
theorem dispatch_dispatches (h : msg.Readable buf) (hrequest : msg.isRequest = true)
    (hid : msg.id ≠ none) : ∃ s' events, dispatch server hmac now later s msg = .ok (s', events) ∧
      Dispatches server s msg hmac now later s' events := by
  unfold dispatch
  rw [hrequest, Bool.not_true, if_neg Bool.false_ne_true, if_neg hid]
  cases hauth : s.adapter.authEnabled with
  | false =>
      obtain ⟨s', events, hrun, hserves⟩ := authorized_serves server s h {}
      exact ⟨s', events, hrun, .unguarded hauth hserves⟩
  | true =>
      obtain ⟨token, s₁, htoken⟩ := extractAuthToken_ok server s h
      rw [if_pos rfl, htoken, ok_bind]
      dsimp only
      cases hauthenticate : authenticate hmac s₁.adapter.authHandler now later token with
      | error message => exact ⟨_, _, rfl, .denied hauth htoken hauthenticate⟩
      | ok u =>
          obtain ⟨s', events, hrun, hserves⟩ := authorized_serves server s₁ h u
          dsimp only
          rw [hrun]
          exact ⟨_, _, rfl, .admitted hauth htoken hauthenticate hserves⟩

/-- Notifications and responses are dropped. -/
theorem dispatch_ignores (h : ¬ (msg.isRequest = true ∧ msg.id ≠ none)) :
    dispatch server hmac now later s msg = .ok (s, []) := by
  unfold dispatch
  cases hrequest : msg.isRequest with
  | false => rfl
  | true =>
      have hid : msg.id = none := by
        by_contra hne
        exact h ⟨hrequest, hne⟩
      rw [Bool.not_true, if_neg Bool.false_ne_true, if_pos hid]
      rfl

end dispatch

end MCPAdapter

end McpToolkit
