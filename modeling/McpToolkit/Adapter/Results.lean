import McpToolkit.Adapter.Gate
import McpToolkit.Adapter.Listing
import McpToolkit.Adapter.Requests
/-!
# What a reply says of a result

The text of a result is written as far as its first NUL, where the builder takes it for
a C string.  The rest of the reply says what it should.
-/

namespace McpToolkit

/-- The member of an object with this name. -/
def Json.member? (name : Bytes) : Json → Option Json
  | .object members => (members.find? fun m => m.1 = name).map (·.2)
  | _ => none

/-- A decoded reply has this result: its content is one text. -/
def Json.Returns (j : Json) (r : ToolResult) : Prop :=
  ∃ result element, j.member? (ascii "result") = some result ∧
    result.member? (ascii "content") = some (.array [element]) ∧
    element.member? (ascii "type") = some (.string (ascii "text")) ∧
    element.member? (ascii "text") = some (.string r.text) ∧
    result.member? (ascii "isError") = some (.bool r.isError)

theorem Json.Returns.unique {j : Json} {r r' : ToolResult} (h : j.Returns r) (h' : j.Returns r') :
    r = r' := by
  obtain ⟨result, element, hresult, hcontent, -, htext, herror⟩ := h
  obtain ⟨result', element', hresult', hcontent', -, htext', herror'⟩ := h'
  obtain rfl := Option.some.inj (hresult.symm.trans hresult')
  have helement := Option.some.inj (hcontent.symm.trans hcontent')
  simp only [Json.array.injEq, List.cons.injEq, and_true] at helement
  subst helement
  have ht := Option.some.inj (htext.symm.trans htext')
  have he := Option.some.inj (herror.symm.trans herror')
  obtain ⟨text, isError⟩ := r
  obtain ⟨text', isError'⟩ := r'
  simp only [Json.string.injEq, Json.bool.injEq] at ht he
  rw [ht, he]

/-! ## Decoding a document -/

theorem entriesOf_json {k : Kind} (e : Label k × Value) (es : List (Label k × Value)) :
    (entriesOf e es).json = (e :: es).map fun e => (e.1.unescape, e.2.json) := by
  induction es generalizing e with
  | nil => rfl
  | cons e' es ih =>
      rw [entriesOf, Entries.json, ih]
      rfl

theorem containerOf_json (k : Kind) (es : List (Label k × Value)) :
    (containerOf k es).json = k.json (es.map fun e => (e.1.unescape, e.2.json)) := by
  cases es with
  | nil => rfl
  | cons e es => rw [containerOf, Value.json, entriesOf_json]

theorem arrayOf_json (es : List Element) :
    (arrayOf es).json = .array (es.map fun e => e.value.json) := by
  rw [arrayOf, containerOf_json, Kind.json, List.map_map, List.map_map]
  rfl

theorem objectOf_json (ms : List (Key × Value)) :
    (objectOf ms).json = .object (ms.map fun m => (m.1.1, m.2.json)) := by
  rw [objectOf, containerOf_json, Kind.json, List.map_map]
  congr 1
  refine List.map_congr_left fun m _ => ?_
  exact congrArg (·, m.2.json) (Str.plain_unescape m.1.1 m.1.2)

namespace MCPAdapter

/-! ## A reply with a result -/

def resultJson (id : Option Int) (r : ToolResult) : Json :=
  .object [(ascii "jsonrpc", .string (ascii "2.0")), (ascii "id", idJson id),
    (ascii "result", .object [
      (ascii "content", .array [
        .object [(ascii "type", .string (ascii "text")), (ascii "text", .string r.text)]]),
      (ascii "isError", .bool r.isError)])]

theorem resultJson_returns (id : Option Int) (r : ToolResult) : (resultJson id r).Returns r :=
  ⟨_, _, rfl, rfl, rfl, rfl, rfl⟩

/-- What is written of a result. -/
def written (r : ToolResult) : ToolResult := { r with text := cString r.text }

theorem string_json (s : Bytes) : (Value.string (escaped s)).json = .string (cString s) := by
  rw [Value.json, escaped_unescape]

theorem contentFields_json (r : ToolResult) : (contentFields r).value.json =
    .object [(ascii "type", .string (ascii "text")), (ascii "text", .string (cString r.text))] := by
  have htype : cString (ascii "text") = ascii "text" := by decide
  rw [Fields.value, objectOf_json, contentFields]
  simp only [Fields.members, List.map_cons, List.map_nil, string_json, htype]

theorem callFields_json (r : ToolResult) : (callFields r).value.json =
    .object [(ascii "content", .array [(contentFields r).value.json]),
      (ascii "isError", .bool r.isError)] := by
  have hflag : (Value.literal (if r.isError then .true else .false)).json = .bool r.isError := by
    cases r.isError <;> rfl
  rw [Fields.value, objectOf_json, callFields]
  simp only [Fields.members, List.map_cons, List.map_nil, arrayOf_json, Element.value, hflag]

theorem replyFields_json (id : Option Int) (r : ToolResult) :
    (replyFields id (resultBody (callFields r))).value.json = resultJson id (written r) := by
  have hversion : cString (ascii "2.0") = ascii "2.0" := by decide
  have hcall : (objectOf (callFields r).members).json = (callFields r).value.json := rfl
  have hid : ∀ n : Int, (Value.number (.ofInt n)).json = .int n := by
    intro n
    rw [Value.json, Number.json, Number.ofInt_toInt?]
  rw [Fields.value, objectOf_json]
  cases id with
  | none =>
      simp only [replyFields, resultBody, Fields.members, List.map_cons, List.map_nil, string_json,
        hversion, hcall, callFields_json, contentFields_json]
      rfl
  | some n =>
      simp only [replyFields, resultBody, Fields.members, List.map_cons, List.map_nil, string_json,
        hversion, hcall, callFields_json, contentFields_json, hid]
      rfl

/-- The line with a result. -/
def resultLine (id : Option Int) (r : ToolResult) : Bytes :=
  (replyFields id (resultBody (callFields r))).value.text

theorem decodes_resultLine (id : Option Int) (r : ToolResult) :
    Decodes (resultLine id r) (resultJson id (written r)) := by
  rw [← replyFields_json]
  exact .of_value _

/-- The result can be read from the line exactly if its text has no NUL. -/
theorem resultLine_returns_iff (id : Option Int) (r : ToolResult) :
    (∃ j, Decodes (resultLine id r) j ∧ j.Returns r) ↔ 0 ∉ r.text := by
  have hdecodes := decodes_resultLine id r
  constructor
  · rintro ⟨j, hj, hreturns⟩
    rw [hj.unique hdecodes] at hreturns
    have hwritten := congrArg ToolResult.text (hreturns.unique (resultJson_returns id (written r)))
    rw [hwritten]
    exact zero_not_mem_cString r.text
  · intro hzero
    have hwritten : written r = r := by rw [written, cString_of_not_mem hzero]
    rw [hwritten] at hdecodes
    exact ⟨_, hdecodes, resultJson_returns id r⟩

end MCPAdapter

open MCPAdapter

/-- The reply to a call has the result of the tool exactly if its text has no NUL. -/
theorem tool_output_iff {σ : Type} {server : Server σ} {s s' : AdapterState σ} {msg : MCPMessage}
    {user caller : Option User} {events : List Event} {name args : Bytes}
    (h : handleToolsCall server s msg user = .ok (s', events))
    (hcall : .callTool name args caller ∈ events) :
    ∃ line, events = [.handleToolsCall, .callTool name args user, .output (line ++ [newline])] ∧
      ((∃ j, Decodes line j ∧ j.Returns (server.callTool s name args user).1) ↔
        0 ∉ (server.callTool s name args user).1.text) := by
  obtain ⟨-, hanswer⟩ := handleToolsCall_called h hcall
  have hevents : events = (answer server s msg user (.ok (name, args))).2 :=
    congrArg Prod.snd hanswer
  refine ⟨resultLine msg.id (server.callTool s name args user).1, ?_, resultLine_returns_iff _ _⟩
  rw [hevents]
  change [_, _, resultReply msg.id (server.callTool s name args user).1] = _
  rw [resultReply_eq]
  rfl

/-- A server whose tools all return this. -/
def returning (r : ToolResult) : Server Unit :=
  { Server.base Unit with
    callTool := fun s _ _ _ => (r, s)
    callTool_reaches := fun s _ _ _ => .refl s.adapter }

theorem handleToolsCall_returning (r : ToolResult) :
    handleToolsCall (returning r) ⟨{}, ()⟩ (callMessage []) none =
      .ok (⟨{}, ()⟩, [.handleToolsCall, .callTool (ascii "t") (ascii "\x7b\x7d") none,
        .output (resultLine (some 1) r ++ [newline])]) := by
  have hrequest : toolRequest (callMessage []) =
      .ok (.ok (ascii "t", ascii "\x7b\x7d")) := by decide +kernel
  rw [handleToolsCall_eq, hrequest, resultLine]
  change Except.ok (_, [_, _, resultReply (some 1) r]) = _
  rw [resultReply_eq]
  rfl

theorem tool_output_iff_of_ok :
    ∃ line, [.handleToolsCall, .callTool (ascii "t") (ascii "\x7b\x7d") none,
        .output (resultLine (some 1) ⟨ascii "ok", false⟩ ++ [newline])] =
          [Event.handleToolsCall, .callTool (ascii "t") (ascii "\x7b\x7d") none,
            .output (line ++ [newline])] ∧
      ((∃ j, Decodes line j ∧ j.Returns ⟨ascii "ok", false⟩) ↔ 0 ∉ ascii "ok") :=
  tool_output_iff (handleToolsCall_returning ⟨ascii "ok", false⟩)
    (List.mem_cons_of_mem _ List.mem_cons_self)

/-- The letters a and b with a NUL between them. -/
def nulResult : ToolResult := ⟨[0x61, 0, 0x62], false⟩

theorem nul_unread :
    MCPMessage.parse (some (callLine [])) kDefaultMaxBytes = .ok (callMessage []) ∧
      handleToolsCall (returning nulResult) ⟨{}, ()⟩ (callMessage []) none =
        .ok (⟨{}, ()⟩, [.handleToolsCall, .callTool (ascii "t") (ascii "\x7b\x7d") none,
          .output (resultLine (some 1) nulResult ++ [newline])]) ∧
      ¬ ∃ j, Decodes (resultLine (some 1) nulResult) j ∧ j.Returns nulResult := by
  refine ⟨by decide +kernel, handleToolsCall_returning nulResult, ?_⟩
  rw [resultLine_returns_iff]
  decide

end McpToolkit
