import McpToolkit.Adapter.Credentials
import McpToolkit.Adapter.Requests
import McpToolkit.Auth.Resources
/-!
# The two switches

A call of `rbac` turns RBAC on, but the policy is consulted only if authentication is on
as well.  Without `configure_auth` every request is served, whatever the policy says.
-/

namespace McpToolkit

/-- A call that configures an adapter, with the calls on what it returns. -/
inductive ConfigCall where
  | registerToolValidation (rules : ToolValidationRules)
  | configureAuth (config : AuthConfig)
  | authHandler (calls : List TokenCall)
  | rbac (calls : List RbacCall)

def ConfigCall.run (a : MCPAdapter) : ConfigCall → MCPAdapter
  | .registerToolValidation rules => a.registerToolValidation rules
  | .configureAuth config => a.configureAuth config
  | .authHandler calls => a.useAuthHandler fun h => calls.foldl TokenCall.run h
  | .rbac calls => a.useRbac fun rbac => calls.foldl RbacCall.run rbac

/-- A new adapter after these calls. -/
def MCPAdapter.configured (calls : List ConfigCall) : MCPAdapter := calls.foldl ConfigCall.run {}

/-- A request for one of the three methods. -/
def MCPMessage.IsServed (msg : MCPMessage) : Prop :=
  msg.isRequest = true ∧ msg.id ≠ none ∧
    ∃ name ∈ [ascii "initialize", ascii "tools/list", ascii "tools/call"],
      MCPAdapter.spanText msg msg.method = .ok name

namespace MCPAdapter

theorem authEnabled_foldl (a : MCPAdapter) (calls : List ConfigCall) :
    (calls.foldl ConfigCall.run a).authEnabled = true ↔
      a.authEnabled = true ∨ ∃ config, .configureAuth config ∈ calls := by
  induction calls generalizing a with
  | nil => simp
  | cons c calls ih =>
      rw [List.foldl_cons, ih]
      cases c <;> simp [ConfigCall.run, registerToolValidation, configureAuth, useAuthHandler,
        useRbac]

theorem rbacEnabled_foldl (a : MCPAdapter) (calls : List ConfigCall) :
    (calls.foldl ConfigCall.run a).rbacEnabled = true ↔
      a.rbacEnabled = true ∨ ∃ uses, .rbac uses ∈ calls := by
  induction calls generalizing a with
  | nil => simp
  | cons c calls ih =>
      rw [List.foldl_cons, ih]
      cases c <;> simp [ConfigCall.run, registerToolValidation, configureAuth, useAuthHandler,
        useRbac]

theorem configured_authEnabled {calls : List ConfigCall} :
    (configured calls).authEnabled = true ↔ ∃ config, .configureAuth config ∈ calls :=
  (authEnabled_foldl {} calls).trans (or_iff_right Bool.false_ne_true)

theorem configured_rbacEnabled {calls : List ConfigCall} :
    (configured calls).rbacEnabled = true ↔ ∃ uses, .rbac uses ∈ calls :=
  (rbacEnabled_foldl {} calls).trans (or_iff_right Bool.false_ne_true)

section

variable {σ : Type} (server : Server σ) (s : AdapterState σ) (msg : MCPMessage)
variable (hmac : Bytes → Bytes → Digest) (now later : Int)

/-- The user for whom `dispatch` goes on, and the state by then.  Without authentication it
is the one that is not authenticated. -/
inductive Establishes : AdapterState σ → User → Prop where
  | anonymous : s.adapter.authEnabled = false → Establishes s {}
  | known {s₁ : AdapterState σ} {token : Bytes} {u : User} : s.adapter.authEnabled = true →
      extractAuthToken server s msg = .ok (token, s₁) →
      authenticate hmac s₁.adapter.authHandler now later token = .ok u → Establishes s₁ u

/-- Whatever is not granted is denied. -/
structure Denies (events : List Event) : Prop where
  granted : (∃ e ∈ events, e.isGuarded = true) → ∃ s₁ u name,
    Establishes server s msg hmac now later s₁ u ∧ spanText msg msg.method = .ok name ∧
      s₁.adapter.rbac.checkPermission u name = true
  refused : msg.isRequest = true → msg.id ≠ none →
    (∀ s₁ u, Establishes server s msg hmac now later s₁ u → s₁.adapter.rbac.policy = []) →
    ∃ before code message, events = before ++ [sendError msg.id code message] ∧
      ∀ e ∈ before, e = .extractAuthToken

end

section

variable {σ : Type} {server : Server σ} {s s' : AdapterState σ} {msg : MCPMessage}
variable {hmac : Bytes → Bytes → Digest} {now later : Int} {events : List Event}

theorem methodIs_eq {t : Bytes} (ht : spanText msg msg.method = .ok t) (name : Bytes) :
    methodIs msg name = .ok (t = name) := by
  unfold methodIs
  rw [ht]
  split_ifs with hlen
  · have hne : t ≠ name := by
      rintro rfl
      exact hlen (Span.length_text ht).symm
    rw [decide_eq_false hne]
    rfl
  · rfl

/-- Behind the gate the method decides. -/
theorem authorized_eq {t : Bytes} (ht : spanText msg msg.method = .ok t)
    (hopen : s.adapter.authEnabled = false) (u : User) : authorized server s msg u =
      if t = ascii "initialize" then .ok (s, handleInitialize s.adapter msg)
      else if t = ascii "tools/list" then .ok (handleToolsList server s msg)
      else if t = ascii "tools/call" then handleToolsCall server s msg none
      else .ok (s, [sendError msg.id (-32601) (ascii "Method not found")]) := by
  unfold authorized
  rw [hopen, Bool.and_false, methodIs_eq ht, methodIs_eq ht, methodIs_eq ht]
  simp only [ok_bind, decide_eq_true_eq, Bool.false_eq_true, if_false]
  split_ifs <;> rfl

theorem handleToolsList_entered :
    .handleToolsList ∈ (handleToolsList server s msg).2 := by
  unfold handleToolsList
  dsimp only
  split <;> exact List.mem_cons_self

theorem handleToolsCall_entered {user : Option User}
    (h : handleToolsCall server s msg user = .ok (s', events)) : .handleToolsCall ∈ events := by
  rw [handleToolsCall_eq] at h
  cases hrequest : toolRequest msg with
  | error fault =>
      rw [hrequest] at h
      cases h
  | ok request =>
      rw [hrequest] at h
      have hevents : (answer server s msg user request).2 = events :=
        congrArg Prod.snd (Except.ok.inj h)
      rw [← hevents]
      cases request <;> exact List.mem_cons_self

/-- Without authentication the three methods are served. -/
theorem authorized_guarded (hopen : s.adapter.authEnabled = false) (hserved : msg.IsServed)
    {u : User} (h : authorized server s msg u = .ok (s', events)) :
    ∃ e ∈ events, e.isGuarded = true := by
  obtain ⟨-, -, t, hmem, ht⟩ := hserved
  rw [authorized_eq ht hopen] at h
  split_ifs at h with hfirst hlist hcall
  · cases h
    exact ⟨.handleInitialize, List.mem_cons_self, rfl⟩
  · have hevents : (handleToolsList server s msg).2 = events :=
      congrArg Prod.snd (Except.ok.inj h)
    rw [← hevents]
    exact ⟨.handleToolsList, handleToolsList_entered, rfl⟩
  · exact ⟨.handleToolsCall, handleToolsCall_entered h, rfl⟩
  · simp [hfirst, hlist, hcall] at hmem

variable (server s) in
/-- The other methods are refused. -/
theorem authorized_refused (hopen : s.adapter.authEnabled = false) (hrequest : msg.isRequest = true)
    (hid : msg.id ≠ none) (hserved : ¬ msg.IsServed) {t : Bytes}
    (ht : spanText msg msg.method = .ok t) (u : User) : authorized server s msg u =
      .ok (s, [sendError msg.id (-32601) (ascii "Method not found")]) := by
  have hother : ∀ name ∈ [ascii "initialize", ascii "tools/list", ascii "tools/call"], t ≠ name := by
    rintro name hname rfl
    exact hserved ⟨hrequest, hid, t, hname, ht⟩
  rw [authorized_eq ht hopen, if_neg (hother _ (by simp)), if_neg (hother _ (by simp)),
    if_neg (hother _ (by simp))]

variable (server hmac now later) in
theorem dispatch_open (hopen : s.adapter.authEnabled = false) (hrequest : msg.isRequest = true)
    (hid : msg.id ≠ none) :
    dispatch server hmac now later s msg = authorized server s msg {} := by
  unfold dispatch
  rw [hrequest, Bool.not_true, if_neg Bool.false_ne_true, if_neg hid, hopen,
    if_neg Bool.false_ne_true]

/-- Nothing is granted to a user who is not authenticated. -/
theorem Establishes.not_granted (hopen : s.adapter.authEnabled = false) {s₁ : AdapterState σ}
    {u : User} (h : Establishes server s msg hmac now later s₁ u) (name : Bytes) :
    s₁.adapter.rbac.checkPermission u name = false := by
  cases h with
  | anonymous => rfl
  | known hauth _ _ =>
      rw [hopen] at hauth
      cases hauth

theorem Serves.denies {s₁ : AdapterState σ} {u : User}
    (hon : s₁.adapter.authEnabled = true ∧ s₁.adapter.rbacEnabled = true)
    (hestablishes : Establishes server s msg hmac now later s₁ u)
    (h : Serves server s₁ msg u s' events) :
    Denies server s msg hmac now later (.extractAuthToken :: events) where
  granted := by
    rintro ⟨e, he, hguarded⟩
    have he' : e ∈ events := by
      rcases List.mem_cons.mp he with rfl | he
      · cases hguarded
      · exact he
    obtain ⟨name, hname, hcheck⟩ := (h.of_guarded he' hguarded).1 hon.1 hon.2
    exact ⟨s₁, u, name, hestablishes, hname, hcheck⟩
  refused _ _ hempty := by
    cases h with
    | refused code message =>
        exact ⟨[.extractAuthToken], code, message, rfl, fun e he => List.mem_singleton.mp he⟩
    | handled hpermitted _ =>
        obtain ⟨perm, hperm, -⟩ := hpermitted.perm hon.1 hon.2
        rw [hempty s₁ u hestablishes] at hperm
        cases hperm

theorem Denies.nil (h : ¬ (msg.isRequest = true ∧ msg.id ≠ none)) :
    Denies server s msg hmac now later [] where
  granted := fun hexists => absurd hexists (by simp)
  refused hrequest hid _ := absurd ⟨hrequest, hid⟩ h

theorem Denies.refusal (before : List Event) (hbefore : ∀ e ∈ before, e = .extractAuthToken)
    (code : Int) (message : Bytes) :
    Denies server s msg hmac now later (before ++ [sendError msg.id code message]) where
  granted := by
    rintro ⟨e, he, hguarded⟩
    rcases List.mem_append.mp he with he | he
    · rw [hbefore e he] at hguarded
      cases hguarded
    · rw [List.mem_singleton.mp he, sendError_isGuarded] at hguarded
      cases hguarded
  refused _ _ _ := ⟨before, code, message, rfl, hbefore⟩

/-- Without authentication nothing is denied. -/
theorem Denies.not_open (h : Denies server s msg hmac now later events)
    (hrun : dispatch server hmac now later s msg = .ok (s', events))
    (hopen : s.adapter.authEnabled = false) (hserved : msg.IsServed) : False := by
  rw [dispatch_open server hmac now later hopen hserved.1 hserved.2.1] at hrun
  obtain ⟨s₁, u, name, hestablishes, -, hcheck⟩ :=
    h.granted (authorized_guarded hopen hserved hrun)
  rw [hestablishes.not_granted hopen name] at hcheck
  cases hcheck

/-- With both switches on the gate is shut by default. -/
theorem Dispatches.denies (hauth : s.adapter.authEnabled = true)
    (hrbac : s.adapter.rbacEnabled = true)
    (h : Dispatches server s msg hmac now later s' events) :
    Denies server s msg hmac now later events := by
  cases h with
  | unguarded hopen _ =>
      rw [hauth] at hopen
      cases hopen
  | denied _ _ _ => exact .refusal [_] (fun e he => List.mem_singleton.mp he) _ _
  | @admitted s₁ _ token u events _ htoken hauthenticate hserves =>
      have hreaches := extractAuthToken_reaches htoken
      exact hserves.denies ⟨hreaches.authEnabled hauth, hreaches.rbacEnabled hrbac⟩
        (.known hauth htoken hauthenticate)

end

end MCPAdapter

open MCPAdapter

/-- With RBAC enabled, a request is denied by default exactly if authentication has been
configured too, or the request is for none of the methods. -/
theorem deny_by_default_iff {σ : Type} (server : Server σ) (x : σ) (hmac : Bytes → Bytes → Digest)
    (now later : Int) {calls : List ConfigCall} (hrbac : ∃ uses, .rbac uses ∈ calls)
    {json : Option Bytes} {maxBytes : Nat} {msg : MCPMessage}
    (hparse : MCPMessage.parse json maxBytes = .ok msg) (hvalid : msg.valid = true) :
    (∃ s' events, dispatch server hmac now later ⟨configured calls, x⟩ msg = .ok (s', events) ∧
      Denies server ⟨configured calls, x⟩ msg hmac now later events) ↔
      (∃ config, .configureAuth config ∈ calls) ∨ ¬ msg.IsServed := by
  obtain ⟨buf, -, -, hreadable⟩ := parse_readable hparse hvalid
  have hrbac' := configured_rbacEnabled.mpr hrbac
  rw [← configured_authEnabled]
  cases hauth : (configured calls).authEnabled with
  | true =>
      refine iff_of_true ?_ (.inl rfl)
      by_cases hdue : msg.isRequest = true ∧ msg.id ≠ none
      · obtain ⟨s', events, hrun, houtcome⟩ := dispatch_dispatches server ⟨configured calls, x⟩ hmac
          now later hreadable hdue.1 hdue.2
        exact ⟨s', events, hrun, houtcome.denies hauth hrbac'⟩
      · exact ⟨_, [], dispatch_ignores server _ hmac now later hdue, .nil hdue⟩
  | false =>
      rw [or_iff_right Bool.false_ne_true]
      constructor
      · rintro ⟨s', events, hrun, hdenies⟩ hserved
        exact hdenies.not_open hrun hauth hserved
      · intro hserved
        by_cases hdue : msg.isRequest = true ∧ msg.id ≠ none
        · obtain ⟨t, ht⟩ := hreadable.method_text
          have hrefused := authorized_refused server ⟨configured calls, x⟩ hauth hdue.1 hdue.2
            hserved ht {}
          rw [← dispatch_open server hmac now later hauth hdue.1 hdue.2] at hrefused
          exact ⟨_, _, hrefused, .refusal [] (List.forall_mem_nil _) _ _⟩
        · exact ⟨_, [], dispatch_ignores server _ hmac now later hdue, .nil hdue⟩

/-- RBAC first, then authentication. -/
def bothCalls : List ConfigCall :=
  [.rbac [.addPermission ⟨.user, ascii "tools/call"⟩], .configureAuth {}]

theorem deny_by_default_iff_of_both :
    (∃ s' events, dispatch (Server.base Unit) secretHmac 0 0 ⟨configured bothCalls, ()⟩
      (callMessage aliceToken) = .ok (s', events) ∧
      Denies (Server.base Unit) ⟨configured bothCalls, ()⟩ (callMessage aliceToken) secretHmac 0 0
        events) ↔
      (∃ config, .configureAuth config ∈ bothCalls) ∨ ¬ (callMessage aliceToken).IsServed :=
  deny_by_default_iff (Server.base Unit) () secretHmac 0 0 ⟨_, List.mem_cons_self⟩ parse_callLine rfl

/-- RBAC with an empty policy, and no authentication. -/
def rbacState : AdapterState Unit := ⟨configured [.rbac []], ()⟩

theorem rbac_alone_open :
    MCPMessage.parse (some (callLine [])) kDefaultMaxBytes = .ok (callMessage []) ∧
      rbacState.adapter.rbacEnabled = true ∧ rbacState.adapter.rbac.policy = [] ∧
      ¬ ∃ s' events, dispatch (Server.base Unit) secretHmac 0 0 rbacState (callMessage []) =
        .ok (s', events) ∧
        Denies (Server.base Unit) rbacState (callMessage []) secretHmac 0 0 events := by
  refine ⟨by decide +kernel, rfl, rfl, ?_⟩
  rintro ⟨s', events, hrun, hdenies⟩
  have hmethod : spanText (callMessage []) (callMessage []).method = .ok (ascii "tools/call") := by
    decide +kernel
  exact hdenies.not_open hrun rfl ⟨rfl, Option.some_ne_none _, _, by simp, hmethod⟩

end McpToolkit
