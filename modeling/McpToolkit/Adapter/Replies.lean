import McpToolkit.Adapter.Dispatch
import McpToolkit.Json.Document
/-!
# Replies

The calls of the builder in each handler build one document, and every request
with an id is answered by one of them on a line of its own.
-/

namespace McpToolkit

/-! ## The documents -/

namespace MCPAdapter

/-- A reply with this body. -/
def replyFields (id : Option Int) (body : Fields) : Fields :=
  .string ⟨ascii "jsonrpc", by decide⟩ (ascii "2.0") <|
    match id with
    | some n => .number ⟨ascii "id", by decide⟩ n body
    | none => .raw ⟨ascii "id", by decide⟩ (.literal .null) body

theorem startReply_emit (id : Option Int) (body : Fields) :
    (body.emit (startReply id)).endObject.get = (replyFields id body).value.text := by
  rw [← Fields.build]
  cases id <;> rfl

def errorBody (code : Int) (message : Bytes) : Fields :=
  .object ⟨ascii "error", by decide⟩
    (.number ⟨ascii "code", by decide⟩ code <|
      .string ⟨ascii "message", by decide⟩ message .nil) .nil

def resultBody (inner : Fields) : Fields := .object ⟨ascii "result", by decide⟩ inner .nil

def initializeFields (a : MCPAdapter) : Fields :=
  .string ⟨ascii "protocolVersion", by decide⟩ a.protocolVersion <|
  .object ⟨ascii "capabilities", by decide⟩ (.object ⟨ascii "tools", by decide⟩ .nil .nil) <|
  .object ⟨ascii "serverInfo", by decide⟩
    (.string ⟨ascii "name", by decide⟩ a.serverName <|
      .string ⟨ascii "version", by decide⟩ a.serverVersion .nil) .nil

def contentFields (result : ToolResult) : Fields :=
  .string ⟨ascii "type", by decide⟩ (ascii "text") <|
  .string ⟨ascii "text", by decide⟩ result.text .nil

def callFields (result : ToolResult) : Fields :=
  .array ⟨ascii "content", by decide⟩ [.raw (contentFields result).value] <|
  .bool ⟨ascii "isError", by decide⟩ result.isError .nil

/-- The names of the parameters need no escape as keys. -/
def PlainNames (t : ToolDefinition) : Prop := ∀ p ∈ t.params, p.name.all isStrChar

def propertyFields : (ps : List ToolParam) → (∀ p ∈ ps, p.name.all isStrChar) → Fields
  | [], _ => .nil
  | p :: ps, h =>
      .object ⟨p.name, h p List.mem_cons_self⟩
        (.string ⟨ascii "type", by decide⟩ p.type <|
          .string ⟨ascii "description", by decide⟩ p.description .nil) <|
      propertyFields ps fun q hq => h q (List.mem_cons_of_mem p hq)

def requiredElements (ps : List ToolParam) : List Element :=
  (ps.filter (·.required)).map fun p => .string p.name

def toolFields (t : ToolDefinition) (h : PlainNames t) : Fields :=
  .string ⟨ascii "name", by decide⟩ t.name <|
  .string ⟨ascii "description", by decide⟩ t.description <|
  .object ⟨ascii "inputSchema", by decide⟩
    (.string ⟨ascii "type", by decide⟩ (ascii "object") <|
      .object ⟨ascii "properties", by decide⟩ (propertyFields t.params h) <|
      .array ⟨ascii "required", by decide⟩ (requiredElements t.params) .nil) .nil

def toolElements : (ts : List ToolDefinition) → (∀ t ∈ ts, PlainNames t) → List Element
  | [], _ => []
  | t :: ts, h =>
      .raw (toolFields t (h t List.mem_cons_self)).value ::
        toolElements ts fun u hu => h u (List.mem_cons_of_mem t hu)

def toolsFields (ts : List ToolDefinition) (h : ∀ t ∈ ts, PlainNames t) : Fields :=
  .array ⟨ascii "tools", by decide⟩ (toolElements ts h) .nil

/-! ## The calls build the documents -/

theorem sendError_eq (id : Option Int) (code : Int) (message : Bytes) :
    sendError id code message =
      .output ((replyFields id (errorBody code message)).value.text ++ [newline]) := by
  rw [← startReply_emit]
  rfl

example : sendError none (-32700) (ascii "Parse error") =
    .output (ascii "\x7b\"jsonrpc\":\"2.0\",\"id\":null,\"error\":\x7b\"code\":-32700,\"message\":\"Parse error\"\x7d\x7d\n") := by
  decide +kernel

theorem handleInitialize_eq (a : MCPAdapter) (msg : MCPMessage) : handleInitialize a msg =
    [.handleInitialize,
      .output ((replyFields msg.id (resultBody (initializeFields a))).value.text ++ [newline])] := by
  rw [← startReply_emit]
  rfl

theorem resultReply_eq (id : Option Int) (result : ToolResult) : resultReply id result =
    .output ((replyFields id (resultBody (callFields result))).value.text ++ [newline]) := by
  have hcontent : ((((({} : JsonBuilder).startObject).addField (ascii "type") (ascii "text")).addField
      (ascii "text") result.text).endObject).get = (contentFields result).value.text := by
    rw [← Fields.build]
    rfl
  rw [← startReply_emit, resultReply, hcontent]
  rfl

/-! ### The list of tools

Here names and raw texts are of any octets, so that the calls come first and the
documents follow where the names need no escape. -/

def propertyCalls : List ToolParam → Calls
  | [] => .nil
  | p :: ps =>
      .object p.name
        (.string (ascii "type") p.type <| .string (ascii "description") p.description .nil) <|
      propertyCalls ps

def requiredItems (ps : List ToolParam) : List Item :=
  (ps.filter (·.required)).map fun p => .string p.name

def toolCalls (t : ToolDefinition) : Calls :=
  .string (ascii "name") t.name <|
  .string (ascii "description") t.description <|
  .object (ascii "inputSchema")
    (.string (ascii "type") (ascii "object") <|
      .object (ascii "properties") (propertyCalls t.params) <|
      .array (ascii "required") (requiredItems t.params) .nil) .nil

def listingCalls (id : Option Int) (ts : List ToolDefinition) : Calls :=
  .string (ascii "jsonrpc") (ascii "2.0") <|
    let result := Calls.object (ascii "result")
      (.array (ascii "tools") (ts.map fun t => .raw (toolDescriptor t)) .nil) .nil
    match id with
    | some n => .number (ascii "id") n result
    | none => .raw (ascii "id") (ascii "null") result

theorem propertyCalls_emit (ps : List ToolParam) (b : JsonBuilder) :
    (propertyCalls ps).emit b = ps.foldl addProperty b := by
  induction ps generalizing b with
  | nil => rfl
  | cons p ps ih =>
      rw [propertyCalls, Calls.emit, ih, List.foldl_cons]
      rfl

theorem requiredItems_emit (ps : List ToolParam) (b : JsonBuilder) :
    (requiredItems ps).foldl Item.emit b = ps.foldl addRequired b := by
  induction ps generalizing b with
  | nil => rfl
  | cons p ps ih =>
      rw [List.foldl_cons, ← ih, requiredItems, List.filter_cons, addRequired]
      split_ifs <;> rfl

theorem propertyCalls_ended (ps : List ToolParam) : (propertyCalls ps).Ended := by
  induction ps with
  | nil => trivial
  | cons p ps ih => exact ⟨trivial, ih⟩

theorem toolCalls_ended (t : ToolDefinition) : (toolCalls t).Ended := by
  refine ⟨⟨propertyCalls_ended t.params, fun i hi => ?_, trivial⟩, trivial⟩
  obtain ⟨p, -, rfl⟩ := List.mem_map.mp hi
  trivial

theorem toolDescriptor_text (t : ToolDefinition) :
    toolDescriptor t = objectText (toolCalls t).parts := by
  have hempty : ({} : JsonBuilder).buffer = [] := rfl
  rw [← Calls.build (toolCalls_ended t) hempty, toolDescriptor]
  simp only [toolCalls, Calls.emit, propertyCalls_emit, requiredItems_emit]

theorem cString_toolDescriptor (t : ToolDefinition) :
    cString (toolDescriptor t) = toolDescriptor t := by
  rw [toolDescriptor_text]
  exact cString_of_not_mem (zero_not_mem_objectText (toolCalls t).zero_not_mem_parts)

theorem listingCalls_ended (id : Option Int) (ts : List ToolDefinition) :
    (listingCalls id ts).Ended := by
  have hitems : ∀ i ∈ ts.map fun t => Item.raw (toolDescriptor t), i.Ended := by
    intro i hi
    obtain ⟨t, -, rfl⟩ := List.mem_map.mp hi
    rw [Item.Ended, cString_toolDescriptor, toolDescriptor_text]
    exact .objectText _
  cases id with
  | none => exact ⟨.of_concat (by decide) (ascii "nul"), ⟨hitems, trivial⟩, trivial⟩
  | some n => exact ⟨⟨hitems, trivial⟩, trivial⟩

theorem toolsReply_text (id : Option Int) (ts : List ToolDefinition) :
    toolsReply id ts = .output (objectText (listingCalls id ts).parts ++ [newline]) := by
  have hempty : ({} : JsonBuilder).buffer = [] := rfl
  rw [← Calls.build (listingCalls_ended id ts) hempty, toolsReply, startReply]
  cases id <;> simp only [listingCalls, Calls.emit, List.foldl_map, Item.emit] <;> rfl

theorem propertyFields_calls (ps : List ToolParam) (h : ∀ p ∈ ps, p.name.all isStrChar) :
    (propertyFields ps h).calls = propertyCalls ps := by
  induction ps with
  | nil => rfl
  | cons p ps ih =>
      rw [propertyFields, propertyCalls, Fields.calls, ih]
      rfl

theorem toolFields_calls (t : ToolDefinition) (h : PlainNames t) :
    (toolFields t h).calls = toolCalls t := by
  have hrequired : (requiredElements t.params).map Element.item = requiredItems t.params := by
    rw [requiredElements, List.map_map]
    rfl
  simp only [toolFields, Fields.calls, propertyFields_calls t.params h, hrequired]
  rfl

theorem toolDescriptor_eq (t : ToolDefinition) (h : PlainNames t) :
    toolDescriptor t = (toolFields t h).value.text := by
  rw [toolDescriptor_text, ← toolFields_calls t h, Fields.calls_text]

theorem toolElements_items (ts : List ToolDefinition) (h : ∀ t ∈ ts, PlainNames t) :
    (toolElements ts h).map Element.item = ts.map fun t => .raw (toolDescriptor t) := by
  induction ts with
  | nil => rfl
  | cons t ts ih =>
      rw [toolElements, List.map_cons, List.map_cons, ih,
        toolDescriptor_eq t (h t List.mem_cons_self)]
      rfl

theorem toolsReply_eq (id : Option Int) (ts : List ToolDefinition) (h : ∀ t ∈ ts, PlainNames t) :
    toolsReply id ts =
      .output ((replyFields id (resultBody (toolsFields ts h))).value.text ++ [newline]) := by
  have hcalls : (replyFields id (resultBody (toolsFields ts h))).calls = listingCalls id ts := by
    cases id <;>
      simp only [replyFields, resultBody, toolsFields, Fields.calls, toolElements_items] <;> rfl
  rw [toolsReply_text, ← hcalls, Fields.calls_text]

/-! ## Each is a reply on one line -/

/-- The `id` of a reply is that of the request, `null` for none. -/
def ShowsId (id : Option Int) (v : Value) : Prop :=
  match id with
  | some n => v.int? = some n
  | none => v = .literal .null

/-- A reply: one line with an object whose members are the version, the id, and a
result or an error. -/
structure IsReply (id : Option Int) (v : Value) : Prop where
  oneLine : Printable v.text
  isObject : v.isObject = true
  members : ∃ version idValue key body,
    v.members = [(ascii "jsonrpc", version), (ascii "id", idValue), (key, body)] ∧
      version.string? = some (ascii "2.0") ∧ ShowsId id idValue ∧
      (key = ascii "result" ∨ key = ascii "error")

theorem replyFields_isReply (id : Option Int) {body : Fields} {key : Key} {v : Value}
    (hbody : body.members = [(key, v)]) (hkey : key.1 = ascii "result" ∨ key.1 = ascii "error")
    (hline : body.OneLine) : IsReply id (replyFields id body).value where
  oneLine := by
    refine Fields.OneLine.printable ?_
    cases id with
    | none => exact ⟨Literal.printable .null, hline⟩
    | some n => exact hline
  isObject := Fields.value_isObject _
  members := by
    have hversion : (escaped (ascii "2.0")).text = ascii "2.0" := by
      rw [escaped_text]
      decide
    refine ⟨.string (escaped (ascii "2.0")), ?_⟩
    rw [Fields.value, objectOf_members, Value.string?, hversion]
    cases id with
    | none => exact ⟨_, key.1, v, by simp [replyFields, Fields.members, hbody], rfl, rfl, hkey⟩
    | some n =>
        exact ⟨.number (.ofInt n), key.1, v, by simp [replyFields, Fields.members, hbody], rfl,
          Number.ofInt_toInt? n, hkey⟩

theorem errorReply_isReply (id : Option Int) (code : Int) (message : Bytes) :
    IsReply id (replyFields id (errorBody code message)).value :=
  replyFields_isReply id rfl (.inr rfl) ⟨trivial, trivial⟩

theorem resultReply_isReply (id : Option Int) {inner : Fields} (h : inner.OneLine) :
    IsReply id (replyFields id (resultBody inner)).value :=
  replyFields_isReply id rfl (.inl rfl) ⟨h, trivial⟩

theorem initializeFields_oneLine (a : MCPAdapter) : (initializeFields a).OneLine :=
  ⟨⟨trivial, trivial⟩, trivial, trivial⟩

theorem propertyFields_oneLine (ps : List ToolParam) (h : ∀ p ∈ ps, p.name.all isStrChar) :
    (propertyFields ps h).OneLine := by
  induction ps with
  | nil => trivial
  | cons p ps ih => exact ⟨trivial, ih _⟩

theorem toolFields_oneLine (t : ToolDefinition) (h : PlainNames t) : (toolFields t h).OneLine := by
  refine ⟨⟨propertyFields_oneLine t.params h, ?_, trivial⟩, trivial⟩
  intro e he
  obtain ⟨p, -, rfl⟩ := List.mem_map.mp he
  trivial

theorem toolElements_oneLine (ts : List ToolDefinition) (h : ∀ t ∈ ts, PlainNames t) :
    ∀ e ∈ toolElements ts h, e.OneLine := by
  induction ts with
  | nil => exact List.forall_mem_nil _
  | cons t ts ih => exact List.forall_mem_cons.mpr ⟨(toolFields_oneLine t _).printable, ih _⟩

theorem toolsFields_oneLine (ts : List ToolDefinition) (h : ∀ t ∈ ts, PlainNames t) :
    (toolsFields ts h).OneLine :=
  ⟨toolElements_oneLine ts h, trivial⟩

theorem callFields_oneLine (result : ToolResult) : (callFields result).OneLine := by
  refine ⟨fun e he => ?_, trivial⟩
  have hcontent : (contentFields result).OneLine := trivial
  rw [List.mem_singleton.mp he]
  exact hcontent.printable

end MCPAdapter

end McpToolkit
