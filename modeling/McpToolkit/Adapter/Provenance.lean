import McpToolkit.Adapter.Lines
import McpToolkit.Adapter.Requests
import McpToolkit.Auth.Identity
/-!
# Where a call comes from

A tool is called for one line of the input, which asks for this tool with these arguments,
and for nobody or for the user of the token in that line.  So what a tool is handed is
text of that line.
-/

namespace McpToolkit

/-! ## Text of a message -/

theorem Span.text_isInfix {s : Span} {buf t : Bytes} (h : s.text buf = .ok t) : t <:+: buf := by
  unfold Span.text at h
  cases hs : s.start with
  | some i =>
      rw [hs] at h
      dsimp only at h
      unfold bytesAt at h
      split_ifs at h
      cases h
      exact (List.take_prefix _ _).isInfix.trans (List.drop_suffix _ _).isInfix
  | none =>
      rw [hs] at h
      dsimp only at h
      split_ifs at h
      cases h
      exact List.nil_infix

namespace MCPAdapter

section text

variable {buf json : Bytes} {msg : MCPMessage}

theorem spanText_isInfix (hraw : msg.rawInput = some buf) {span : Span} {t : Bytes}
    (h : spanText msg span = .ok t) : t <:+: buf := by
  rw [spanText, hraw] at h
  exact Span.text_isInfix h

theorem argsJson_isInfix {args : Bytes} (h : argsJson json = .ok args) :
    args = [lbrace, rbrace] ∨ args <:+: json := by
  unfold argsJson at h
  obtain ⟨⟨ok, span⟩, -, h⟩ := bind_eq_ok h
  dsimp only at h
  split_ifs at h
  · exact .inr (Span.text_isInfix h)
  · cases h
    exact .inl rfl

/-- The name and the arguments are text of the message, unless there are no arguments. -/
theorem toolRequest_isInfix (hraw : msg.rawInput = some buf) {name args : Bytes}
    (h : toolRequest msg = .ok (.ok (name, args))) :
    name <:+: buf ∧ (args = [lbrace, rbrace] ∨ args <:+: buf) := by
  obtain ⟨json, span, hjson, -, hname, hargs, -⟩ := toolRequest_ok h
  have hinfix := spanText_isInfix hraw hjson
  refine ⟨(Span.text_isInfix hname).trans hinfix, ?_⟩
  rcases argsJson_isInfix hargs with heq | hmem
  · exact .inl heq
  · exact .inr (hmem.trans hinfix)

theorem defaultAuthToken_isInfix (hraw : msg.rawInput = some buf) {token : Bytes}
    (h : defaultAuthToken msg = .ok token) : token <:+: buf := by
  unfold defaultAuthToken at h
  obtain ⟨json, hjson, h⟩ := bind_eq_ok h
  obtain ⟨⟨ok, span⟩, -, h⟩ := bind_eq_ok h
  dsimp only at h
  split_ifs at h
  · exact (Span.text_isInfix h).trans (spanText_isInfix hraw hjson)
  · cases h
    exact List.nil_infix

end text

/-! ## Calls -/

section call

variable {σ : Type} {server : Server σ} {s s' : AdapterState σ} {msg : MCPMessage}
variable {hmac : Bytes → Bytes → Digest} {now later : Int} {events : List Event}
variable {name args : Bytes} {user : Option User}

theorem methodIs_true (h : methodIs msg name = .ok true) : spanText msg msg.method = .ok name := by
  unfold methodIs at h
  split_ifs at h
  · cases h
  obtain ⟨method, hmethod, h⟩ := bind_eq_ok h
  rw [hmethod, of_decide_eq_true (Except.ok.inj h)]

/-- A message asks for a tool with its arguments. -/
structure Wants (msg : MCPMessage) (name args : Bytes) : Prop where
  method : spanText msg msg.method = .ok (ascii "tools/call")
  request : toolRequest msg = .ok (.ok (name, args))

theorem not_callTool_of_output {line : Bytes} :
    .callTool name args user ∉ [Event.output line] := by
  simp

theorem methods_wants {caller : Option User} (h : (do
      if ← methodIs msg (ascii "initialize") then return (s, handleInitialize s.adapter msg)
      if ← methodIs msg (ascii "tools/list") then return handleToolsList server s msg
      if ← methodIs msg (ascii "tools/call") then return ← handleToolsCall server s msg caller
      return (s, [sendError msg.id (-32601) (ascii "Method not found")]) :
        Except Fault (AdapterState σ × List Event)) = .ok (s', events))
    (hcall : .callTool name args user ∈ events) : Wants msg name args ∧ user = caller := by
  obtain ⟨first, -, h⟩ := bind_eq_ok h
  cases first with
  | true =>
      cases h
      simp [handleInitialize, send] at hcall
  | false =>
      obtain ⟨list, -, h⟩ := bind_eq_ok h
      cases list with
      | true =>
          have hevents : (handleToolsList server s msg).2 = events :=
            congrArg Prod.snd (Except.ok.inj h)
          rw [← hevents] at hcall
          exact absurd hcall callTool_not_mem_handleToolsList
      | false =>
          obtain ⟨call, hmethod, h⟩ := bind_eq_ok h
          cases call with
          | true =>
              obtain ⟨hrequest, hanswer⟩ := handleToolsCall_called h hcall
              have hevents : events = (answer server s msg caller (.ok (name, args))).2 :=
                congrArg Prod.snd hanswer
              rw [hevents] at hcall
              simp only [answer, resultReply, send, List.mem_cons, reduceCtorEq, List.not_mem_nil,
                false_or, or_false, Event.callTool.injEq, true_and] at hcall
              exact ⟨⟨methodIs_true hmethod, hrequest⟩, hcall⟩
          | false =>
              cases h
              exact absurd hcall not_callTool_of_output

theorem authorized_wants {u : User} (h : authorized server s msg u = .ok (s', events))
    (hcall : .callTool name args user ∈ events) :
    Wants msg name args ∧ user = if s.adapter.authEnabled then some u else none := by
  unfold authorized at h
  by_cases hrbac : (s.adapter.rbacEnabled && s.adapter.authEnabled) = true
  · rw [if_pos hrbac] at h
    obtain ⟨method, -, h⟩ := bind_eq_ok h
    by_cases hcheck : (!s.adapter.rbac.checkPermission u method) = true
    · rw [if_pos hcheck] at h
      cases h
      exact absurd hcall not_callTool_of_output
    · rw [if_neg hcheck] at h
      exact methods_wants h hcall
  · rw [if_neg hrbac] at h
    exact methods_wants h hcall

/-- For whom a tool is called: for nobody, or for the user whom the token names. -/
inductive CalledFor (server : Server σ) (s : AdapterState σ) (hmac : Bytes → Bytes → Digest)
    (now later : Int) (msg : MCPMessage) : Option User → Prop where
  | nobody : s.adapter.authEnabled = false → CalledFor server s hmac now later msg none
  | user {token : Bytes} {s₁ : AdapterState σ} {u : User} : s.adapter.authEnabled = true →
      extractAuthToken server s msg = .ok (token, s₁) →
      authenticate hmac s₁.adapter.authHandler now later token = .ok u →
      CalledFor server s hmac now later msg (some u)

theorem dispatch_wants (h : dispatch server hmac now later s msg = .ok (s', events))
    (hcall : .callTool name args user ∈ events) :
    Wants msg name args ∧ CalledFor server s hmac now later msg user := by
  unfold dispatch at h
  split_ifs at h with hrequest hid hauth
  · cases h
    cases hcall
  · cases h
    cases hcall
  · obtain ⟨⟨token, s₁⟩, htoken, h⟩ := bind_eq_ok h
    dsimp only at h
    cases hauthenticate : authenticate hmac s₁.adapter.authHandler now later token with
    | error message =>
        rw [hauthenticate] at h
        cases h
        simp [sendError, send] at hcall
    | ok u =>
        rw [hauthenticate] at h
        obtain ⟨⟨s₂, served⟩, hserved, h⟩ := bind_eq_ok h
        cases h
        obtain ⟨hwants, huser⟩ :=
          authorized_wants hserved ((List.mem_cons.mp hcall).resolve_left (by simp))
        rw [(extractAuthToken_reaches htoken).authEnabled hauth, if_pos rfl] at huser
        rw [huser]
        exact ⟨hwants, .user hauth htoken hauthenticate⟩
  · obtain ⟨hwants, huser⟩ := authorized_wants h hcall
    rw [if_neg hauth] at huser
    rw [huser]
    exact ⟨hwants, .nobody (by simpa using hauth)⟩

/-! ## Runs -/

/-- A line, read in some state, has a tool called. -/
structure CalledBy (server : Server σ) (hmac : Bytes → Bytes → Digest) (i : Input)
    (s : AdapterState σ) (msg : MCPMessage) (name args : Bytes) (user : Option User) : Prop where
  parse : MCPMessage.parse (some (stripReturn i.line)) kDefaultMaxBytes = .ok msg
  valid : msg.valid = true
  wants : Wants msg name args
  calledFor : CalledFor server s hmac i.now i.later msg user

theorem runLine_called {i : Input} (h : runLine server hmac i s = .ok (s', events))
    (hcall : .callTool name args user ∈ events) :
    ∃ msg, CalledBy server hmac i s msg name args user := by
  unfold runLine at h
  split_ifs at h with hempty
  · cases h
    cases hcall
  obtain ⟨msg, hparse, h⟩ := bind_eq_ok h
  cases hvalid : msg.valid with
  | false =>
      rw [hvalid, Bool.not_false, if_pos rfl] at h
      cases h
      exact absurd hcall not_callTool_of_output
  | true =>
      rw [hvalid, Bool.not_true, if_neg Bool.false_ne_true] at h
      obtain ⟨hwants, hcalled⟩ := dispatch_wants h hcall
      exact ⟨msg, hparse, hvalid, hwants, hcalled⟩

theorem run_singleton {i : Input} (h : runLine server hmac i s = .ok (s', events)) :
    run server hmac [i] s = .ok (s', events) := by
  rw [run, h, ok_bind]
  exact congrArg (fun events => Except.ok (s', events)) (List.append_nil events)

/-- The input up to a line leads to the state in which the line is read. -/
theorem run_split {inputs : List Input} (h : run server hmac inputs s = .ok (s', events))
    {e : Event} (he : e ∈ events) : ∃ before i after s₁ s₂ earlier served,
      inputs = before ++ i :: after ∧ run server hmac before s = .ok (s₁, earlier) ∧
        runLine server hmac i s₁ = .ok (s₂, served) ∧ e ∈ served := by
  induction inputs generalizing s events with
  | nil =>
      cases h
      cases he
  | cons i inputs ih =>
      obtain ⟨⟨s₁, first⟩, hfirst, h⟩ := bind_eq_ok h
      obtain ⟨⟨s₂, others⟩, hothers, h⟩ := bind_eq_ok h
      cases h
      rcases List.mem_append.mp he with he | he
      · exact ⟨[], i, inputs, s, s₁, [], first, rfl, rfl, hfirst, he⟩
      · obtain ⟨before, j, after, s₃, s₄, earlier, served, rfl, hrun, hline, hmem⟩ := ih hothers he
        refine ⟨i :: before, j, after, s₃, s₄, first ++ earlier, served, rfl, ?_, hline, hmem⟩
        rw [run, hfirst, ok_bind]
        dsimp only
        rw [hrun]
        rfl

theorem stripReturn_isPrefix (line : Bytes) : stripReturn line <+: line := by
  unfold stripReturn
  split_ifs
  · exact List.dropLast_prefix line
  · exact List.prefix_refl line

/-- The user is named at the start of the token. -/
theorem CalledFor.userId_isInfix {u : User} {buf : Bytes}
    (h : CalledFor server s hmac now later msg (some u)) (hraw : msg.rawInput = some buf)
    (hdefault : server.extractAuthToken = none) :
    u.userId <:+: buf ∧ u.role = .user ∧ u.authenticated = true := by
  cases h with
  | @user token s₁ _ hauth htoken hauthenticate =>
      unfold extractAuthToken at htoken
      rw [hdefault] at htoken
      obtain ⟨token', htoken', htoken⟩ := bind_eq_ok htoken
      cases htoken
      obtain ⟨-, hknown, rfl⟩ := authenticate_eq_ok.mp hauthenticate
      have hnames := AuthenticationHandler.names_of_decodeToken rfl hknown
      have hbegins := List.prefix_append (s.adapter.authHandler.decodeToken hmac later token)
        (point :: base64Encode (hmac s.adapter.authHandler.tokenSecret
          (s.adapter.authHandler.decodeToken hmac later token)).1)
      rw [← AuthenticationHandler.tokenOf, ← hnames.genuine] at hbegins
      exact ⟨hbegins.isInfix.trans (defaultAuthToken_isInfix hraw htoken'), rfl, rfl⟩

theorem run_called {inputs : List Input} (h : run server hmac inputs s = .ok (s', events))
    (hcall : .callTool name args user ∈ events) : ∃ before i after s₁ earlier msg,
      inputs = before ++ i :: after ∧ run server hmac before s = .ok (s₁, earlier) ∧
      CalledBy server hmac i s₁ msg name args user := by
  obtain ⟨before, i, after, s₁, s₂, earlier, served, hinputs, hrun, hline, hmem⟩ :=
    run_split h hcall
  obtain ⟨msg, hcalled⟩ := runLine_called hline hmem
  exact ⟨before, i, after, s₁, earlier, msg, hinputs, hrun, hcalled⟩

/-- What the tool is handed is text of the line. -/
theorem CalledBy.handed {i : Input} (h : CalledBy server hmac i s msg name args user) :
    name <:+: i.line ∧ (args = [lbrace, rbrace] ∨ args <:+: i.line) ∧
      (server.extractAuthToken = none → ∀ u ∈ user,
        u.userId <:+: i.line ∧ u.role = .user ∧ u.authenticated = true) := by
  obtain ⟨buf, hbuf, -, hreadable⟩ := parse_readable h.parse h.valid
  obtain rfl := Option.some.inj hbuf
  have hstrip := (stripReturn_isPrefix i.line).isInfix
  obtain ⟨hname, hargs⟩ := toolRequest_isInfix hreadable.rawInput h.wants.request
  refine ⟨hname.trans hstrip, hargs.imp_right fun hargs => hargs.trans hstrip,
    fun hdefault u hu => ?_⟩
  obtain rfl := Option.mem_def.mp hu
  obtain ⟨huser, hrole⟩ := h.calledFor.userId_isInfix hreadable.rawInput hdefault
  exact ⟨huser.trans hstrip, hrole⟩

/-- In every run a tool is called because of a line of the input, which is a request for
this tool with these arguments in the state in which it is read, and for nobody or for the
user whose token it presents.  The name, the arguments that there are and the user are
text of that line. -/
theorem call_provenance {inputs : List Input} (h : run server hmac inputs s = .ok (s', events))
    (hcall : .callTool name args user ∈ events) : ∃ before i after s₁ earlier msg,
      inputs = before ++ i :: after ∧ run server hmac before s = .ok (s₁, earlier) ∧
      CalledBy server hmac i s₁ msg name args user ∧ name <:+: i.line ∧
      (args = [lbrace, rbrace] ∨ args <:+: i.line) ∧
      (server.extractAuthToken = none → ∀ u ∈ user,
        u.userId <:+: i.line ∧ u.role = .user ∧ u.authenticated = true) := by
  obtain ⟨before, i, after, s₁, earlier, msg, hinputs, hrun, hcalled⟩ := run_called h hcall
  exact ⟨before, i, after, s₁, earlier, msg, hinputs, hrun, hcalled, hcalled.handed⟩

end call

/-- alice. -/
def alice : User := { userId := ascii "alice", role := .user, authenticated := true }

theorem run_callLine : ∃ s' events,
    run (Server.base Unit) secretHmac [⟨callLine aliceToken, 0, 0⟩] (guardedState false) =
        .ok (s', events) ∧
      .callTool (ascii "t") (ascii "\x7b\x7d") (some alice) ∈ events := by
  have hcomputed : (runLine (Server.base Unit) secretHmac ⟨callLine aliceToken, 0, 0⟩
      (guardedState false)).toOption.map (·.2.contains
        (.callTool (ascii "t") (ascii "\x7b\x7d") (some alice))) = some true := by
    decide +kernel
  obtain ⟨s', events, hline⟩ := runLine_returns (Server.base Unit) secretHmac
    ⟨callLine aliceToken, 0, 0⟩ (guardedState false)
  rw [hline] at hcomputed
  exact ⟨s', events, run_singleton hline,
    List.contains_iff_mem.mp (Option.some.inj hcomputed)⟩

theorem call_provenance_of_alice : ascii "alice" <:+: callLine aliceToken := by
  obtain ⟨s', events, hrun, hcall⟩ := run_callLine
  obtain ⟨before, i, after, s₁, earlier, msg, hinputs, -, -, -, -, huser⟩ :=
    call_provenance hrun hcall
  have hmem : i ∈ [(⟨callLine aliceToken, 0, 0⟩ : Input)] := by
    rw [hinputs]
    exact List.mem_append_right before List.mem_cons_self
  have hinfix := (huser rfl alice rfl).1
  rwa [List.mem_singleton.mp hmem] at hinfix

end MCPAdapter

end McpToolkit
