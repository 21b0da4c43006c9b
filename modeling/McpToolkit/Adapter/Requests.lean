import McpToolkit.Adapter.Server
/-!
# What a call asks for

`handle_tools_call` reads the params, and either refuses them or has a tool and its
arguments.  What it does next depends on nothing else of them.
-/

namespace McpToolkit

namespace MCPAdapter

/-- The params of a call as it reads them: a tool with its arguments, or the text of
the refusal. -/
def toolRequest (msg : MCPMessage) : Except Fault (Except Bytes (Bytes × Bytes)) := do
  if msg.params.start = none || msg.params.len = 0 then return .error (ascii "Invalid params")
  if msg.params.len > maxParamsSize then
    return .error (ascii "Parameters exceed maximum size (1 MB)")
  let json ← spanText msg msg.params
  let (ok, name) ← extractString json (ascii "name")
  if !ok || name.len = 0 then return .error (ascii "Missing tool name")
  let args ← argsJson json
  let toolName ← name.text json
  if InputValidationHandler.containsShellMetacharacters args ||
      InputValidationHandler.containsEncodedMetacharacters args then
    return .error (ascii "Arguments contain invalid characters (potential injection)")
  return .ok (toolName, args)

section

variable {σ : Type} (server : Server σ) (s : AdapterState σ) (msg : MCPMessage) (user : Option User)

/-- The answer to what was read. -/
def answer : Except Bytes (Bytes × Bytes) → AdapterState σ × List Event
  | .error message => (s, [.handleToolsCall, sendError msg.id (-32602) message])
  | .ok (name, args) =>
      let (result, s') := server.callTool s name args user
      (s', [.handleToolsCall, .callTool name args user, resultReply msg.id result])

theorem handleToolsCall_eq :
    handleToolsCall server s msg user = (toolRequest msg).map (answer server s msg user) := by
  unfold handleToolsCall toolRequest
  split_ifs
  · rfl
  · rfl
  cases spanText msg msg.params with
  | error fault => rfl
  | ok json =>
      rw [ok_bind, ok_bind]
      cases extractString json (ascii "name") with
      | error fault => rfl
      | ok found =>
          obtain ⟨ok, name⟩ := found
          rw [ok_bind, ok_bind]
          dsimp only
          split_ifs
          · rfl
          cases argsJson json with
          | error fault => rfl
          | ok args =>
              rw [ok_bind, ok_bind]
              cases name.text json with
              | error fault => rfl
              | ok toolName =>
                  rw [ok_bind, ok_bind]
                  split_ifs <;> rfl

variable {server s msg user}

/-- A tool is called as the params ask, and the answer is its result. -/
theorem handleToolsCall_called {s' : AdapterState σ} {events : List Event} {name args : Bytes}
    {caller : Option User} (h : handleToolsCall server s msg user = .ok (s', events))
    (hcall : .callTool name args caller ∈ events) :
    toolRequest msg = .ok (.ok (name, args)) ∧
      (s', events) = answer server s msg user (.ok (name, args)) := by
  rw [handleToolsCall_eq] at h
  cases hrequest : toolRequest msg with
  | error fault =>
      rw [hrequest] at h
      cases h
  | ok request =>
      rw [hrequest] at h
      have hanswer : answer server s msg user request = (s', events) := Except.ok.inj h
      have hevents : (answer server s msg user request).2 = events := congrArg Prod.snd hanswer
      cases request with
      | error message =>
          rw [← hevents] at hcall
          simp [answer, sendError, send] at hcall
      | ok call =>
          rw [← hevents] at hcall
          simp only [answer, resultReply, send, List.mem_cons, reduceCtorEq, List.not_mem_nil,
            false_or, or_false, Event.callTool.injEq] at hcall
          obtain ⟨rfl, rfl, -⟩ := hcall
          exact ⟨rfl, hanswer.symm⟩

/-- What a request holds has been read from the text of the params. -/
theorem toolRequest_ok {name args : Bytes} (h : toolRequest msg = .ok (.ok (name, args))) :
    ∃ json span, spanText msg msg.params = .ok json ∧
      extractString json (ascii "name") = .ok (true, span) ∧ span.text json = .ok name ∧
      argsJson json = .ok args ∧
      InputValidationHandler.containsShellMetacharacters args = false ∧
      InputValidationHandler.containsEncodedMetacharacters args = false := by
  unfold toolRequest at h
  split_ifs at h
  · cases h
  · cases h
  obtain ⟨json, hjson, h⟩ := bind_eq_ok h
  obtain ⟨⟨ok, span⟩, hspan, h⟩ := bind_eq_ok h
  dsimp only at h
  split_ifs at h with hmissing
  · cases h
  obtain ⟨passed, hargs, h⟩ := bind_eq_ok h
  obtain ⟨toolName, htext, h⟩ := bind_eq_ok h
  split_ifs at h with hcheck
  · cases h
  cases h
  rw [Bool.or_eq_true, not_or, Bool.not_eq_true, Bool.not_eq_true] at hcheck
  cases ok with
  | false => exact absurd rfl hmissing
  | true => exact ⟨json, span, hjson, hspan, htext, hargs, hcheck.1, hcheck.2⟩

end

end MCPAdapter

open MCPAdapter

section

variable {σ : Type} (server : Server σ) (s : AdapterState σ) (user : Option User)

/-- A call calls a tool. -/
def Invokes (msg : MCPMessage) (name args : Bytes) : Prop :=
  ∃ s' events, handleToolsCall server s msg user = .ok (s', events) ∧
    .callTool name args user ∈ events

variable {server s user} {msg : MCPMessage} {name args : Bytes}

/-- What the params ask for is done. -/
theorem invokes_of_toolRequest (h : toolRequest msg = .ok (.ok (name, args))) :
    Invokes server s user msg name args := by
  refine ⟨(answer server s msg user (.ok (name, args))).1,
    (answer server s msg user (.ok (name, args))).2, ?_,
    List.mem_cons_of_mem _ List.mem_cons_self⟩
  rw [handleToolsCall_eq, h]
  rfl

end

end McpToolkit
