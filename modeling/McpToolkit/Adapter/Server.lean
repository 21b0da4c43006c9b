import McpToolkit.Adapter.Extract
import McpToolkit.Adapter.Tools
import McpToolkit.Auth.Handler
import McpToolkit.Auth.Rbac
import McpToolkit.Json.Builder
import McpToolkit.Json.Parser
/-!
# The adapter

`MCPAdapter` from `run` down: a line is parsed, a request is authenticated and
authorised and then handled, and every reply is put together by the builder.  What
can be seen from outside is a list of events: handlers that are entered, virtual
functions that are called, and lines that are written.
-/

namespace McpToolkit

structure MCPAdapter where
  serverName : Bytes := ascii "mcptoolkit"
  serverVersion : Bytes := ascii "0.1.0"
  protocolVersion : Bytes := ascii "2024-11-05"
  validator : InputValidationHandler := {}
  authHandler : AuthenticationHandler := {}
  rbac : RoleBasedAccessControl := {}
  authEnabled : Bool := false
  rbacEnabled : Bool := false

namespace MCPAdapter

/-! ## Configuration -/

def registerToolValidation (a : MCPAdapter) (rules : ToolValidationRules) : MCPAdapter :=
  { a with validator := a.validator.registerToolRules rules }

def configureAuth (a : MCPAdapter) (config : AuthConfig) : MCPAdapter :=
  { a with authHandler := a.authHandler.configure config, authEnabled := true }

/-- `auth_handler()`, and what is done with the handler. -/
def useAuthHandler (a : MCPAdapter) (use : AuthenticationHandler → AuthenticationHandler) :
    MCPAdapter :=
  { a with authHandler := use a.authHandler }

/-- `rbac()`, and what is done with the policy. -/
def useRbac (a : MCPAdapter) (use : RoleBasedAccessControl → RoleBasedAccessControl) :
    MCPAdapter :=
  { a with rbac := use a.rbac, rbacEnabled := true }

end MCPAdapter

/-- What a subclass can do to its adapter: the rules, the handler and the policy are its
to change, the switches can only be turned on, the rest is private. -/
structure MCPAdapter.Reaches (a a' : MCPAdapter) : Prop where
  serverName : a'.serverName = a.serverName
  serverVersion : a'.serverVersion = a.serverVersion
  protocolVersion : a'.protocolVersion = a.protocolVersion
  authEnabled : a.authEnabled = true → a'.authEnabled = true
  rbacEnabled : a.rbacEnabled = true → a'.rbacEnabled = true

theorem MCPAdapter.Reaches.refl (a : MCPAdapter) : a.Reaches a := ⟨rfl, rfl, rfl, id, id⟩

/-- An adapter and the state of the subclass that serves it. -/
structure AdapterState (σ : Type) where
  adapter : MCPAdapter
  server : σ

theorem AdapterState.reaches_self {σ : Type} (s : AdapterState σ) : s.adapter.Reaches s.adapter :=
  .refl s.adapter

/-- The virtual functions of a subclass; `extract_auth_token` has a default. -/
structure Server (σ : Type) where
  listTools : AdapterState σ → List ToolDefinition × AdapterState σ
  callTool : AdapterState σ → Bytes → Bytes → Option User → ToolResult × AdapterState σ
  extractAuthToken : Option (AdapterState σ → MCPMessage → Bytes × AdapterState σ) := none
  listTools_reaches : ∀ s : AdapterState σ, s.adapter.Reaches (listTools s).2.adapter
  callTool_reaches : ∀ (s : AdapterState σ) (name args : Bytes) (user : Option User),
    s.adapter.Reaches (callTool s name args user).2.adapter
  extractAuthToken_reaches : ∀ f, extractAuthToken = some f →
    ∀ (s : AdapterState σ) (msg : MCPMessage), s.adapter.Reaches (f s msg).2.adapter

/-- The class itself, with none of its virtual functions overridden. -/
def Server.base (σ : Type) : Server σ where
  listTools s := ([], s)
  callTool s _ _ _ := (⟨ascii "unknown tool", true⟩, s)
  listTools_reaches s := .refl s.adapter
  callTool_reaches s _ _ _ := .refl s.adapter
  extractAuthToken_reaches f h := by cases h

inductive Event where
  | extractAuthToken
  | handleInitialize
  | handleToolsList
  | handleToolsCall
  | listTools
  | callTool (name argsJson : Bytes) (user : Option User)
  | output (line : Bytes)
  deriving Repr, DecidableEq

namespace MCPAdapter

/-! ## Replies -/

/-- The `id` of a reply, `null` for none. -/
def addId (b : JsonBuilder) : Option Int → JsonBuilder
  | some n => b.addFieldNumber (ascii "id") n
  | none => b.addFieldRaw (ascii "id") (ascii "null")

/-- What every reply starts with. -/
def startReply (id : Option Int) : JsonBuilder :=
  let b : JsonBuilder := {}
  let b := b.startObject
  let b := b.addField (ascii "jsonrpc") (ascii "2.0")
  addId b id

def send (b : JsonBuilder) : Event := .output (b.get ++ [newline])

def sendError (id : Option Int) (code : Int) (message : Bytes) : Event :=
  let b := startReply id
  let b := b.addObjectField (ascii "error")
  let b := b.addFieldNumber (ascii "code") code
  let b := b.addField (ascii "message") message
  let b := b.closeObjectField
  send b.endObject

def handleInitialize (a : MCPAdapter) (msg : MCPMessage) : List Event :=
  let b := startReply msg.id
  let b := b.addObjectField (ascii "result")
  let b := b.addField (ascii "protocolVersion") a.protocolVersion
  let b := b.addObjectField (ascii "capabilities")
  let b := b.addObjectField (ascii "tools")
  let b := b.closeObjectField
  let b := b.closeObjectField
  let b := b.addObjectField (ascii "serverInfo")
  let b := b.addField (ascii "name") a.serverName
  let b := b.addField (ascii "version") a.serverVersion
  let b := b.closeObjectField
  let b := b.closeObjectField
  [.handleInitialize, send b.endObject]

/-- A property of the input schema. -/
def addProperty (b : JsonBuilder) (p : ToolParam) : JsonBuilder :=
  let b := b.addObjectField p.name
  let b := b.addField (ascii "type") p.type
  let b := b.addField (ascii "description") p.description
  b.closeObjectField

def addRequired (b : JsonBuilder) (p : ToolParam) : JsonBuilder :=
  if p.required then b.addArrayElement p.name else b

/-- A tool descriptor, as a raw JSON object. -/
def toolDescriptor (t : ToolDefinition) : Bytes :=
  let b : JsonBuilder := {}
  let b := b.startObject
  let b := b.addField (ascii "name") t.name
  let b := b.addField (ascii "description") t.description
  let b := b.addObjectField (ascii "inputSchema")
  let b := b.addField (ascii "type") (ascii "object")
  let b := b.addObjectField (ascii "properties")
  let b := t.params.foldl addProperty b
  let b := b.closeObjectField
  let b := b.addArrayField (ascii "required")
  let b := t.params.foldl addRequired b
  let b := b.closeArrayField
  let b := b.closeObjectField
  b.endObject.get

def toolsReply (id : Option Int) (tools : List ToolDefinition) : Event :=
  let b := startReply id
  let b := b.addObjectField (ascii "result")
  let b := b.addArrayField (ascii "tools")
  let b := tools.foldl (fun b t => b.addArrayElementRaw (toolDescriptor t)) b
  let b := b.closeArrayField
  let b := b.closeObjectField
  send b.endObject

def resultReply (id : Option Int) (result : ToolResult) : Event :=
  let cb : JsonBuilder := {}
  let cb := cb.startObject
  let cb := cb.addField (ascii "type") (ascii "text")
  let cb := cb.addField (ascii "text") result.text
  let cb := cb.endObject
  let b := startReply id
  let b := b.addObjectField (ascii "result")
  let b := b.addArrayField (ascii "content")
  let b := b.addArrayElementRaw cb.get
  let b := b.closeArrayField
  let b := b.addFieldBool (ascii "isError") result.isError
  let b := b.closeObjectField
  send b.endObject

/-! ## Handlers -/

section handlers

variable {σ : Type} (server : Server σ)

/-- All definitions are checked before any is listed. -/
def handleToolsList (s : AdapterState σ) (msg : MCPMessage) : AdapterState σ × List Event :=
  let (tools, s) := server.listTools s
  match tools.findSome? fun t =>
      let error := validateToolDefinition t
      if error.isEmpty then none else some error with
  | some error => (s, [.handleToolsList, .listTools,
      sendError msg.id (-32603) (ascii "Invalid tool definition: " ++ error)])
  | none => (s, [.handleToolsList, .listTools, toolsReply msg.id tools])

/-- 1 MB per call. -/
def maxParamsSize : Nat := 1024 * 1024

/-- The octets under a span of a message. -/
def spanText (msg : MCPMessage) (span : Span) : Except Fault Bytes :=
  span.text (msg.rawInput.getD [])

/-- The arguments of a call, `{}` if there are none. -/
def argsJson (json : Bytes) : Except Fault Bytes := do
  let (ok, span) ← extractValueSpan json (ascii "arguments") {}
  if ok then span.text json else return [lbrace, rbrace]

def handleToolsCall (s : AdapterState σ) (msg : MCPMessage) (user : Option User) :
    Except Fault (AdapterState σ × List Event) := do
  if msg.params.start = none || msg.params.len = 0 then
    return (s, [.handleToolsCall, sendError msg.id (-32602) (ascii "Invalid params")])
  if msg.params.len > maxParamsSize then
    return (s, [.handleToolsCall,
      sendError msg.id (-32602) (ascii "Parameters exceed maximum size (1 MB)")])
  let json ← spanText msg msg.params
  let (ok, name) ← extractString json (ascii "name")
  if !ok || name.len = 0 then
    return (s, [.handleToolsCall, sendError msg.id (-32602) (ascii "Missing tool name")])
  let args ← argsJson json
  let toolName ← name.text json
  if InputValidationHandler.containsShellMetacharacters args ||
      InputValidationHandler.containsEncodedMetacharacters args then
    return (s, [.handleToolsCall, sendError msg.id (-32602)
      (ascii "Arguments contain invalid characters (potential injection)")])
  let (result, s) := server.callTool s toolName args user
  return (s, [.handleToolsCall, .callTool toolName args user, resultReply msg.id result])

/-! ## Dispatch -/

/-- The default of `extract_auth_token`. -/
def defaultAuthToken (msg : MCPMessage) : Except Fault Bytes := do
  let json ← spanText msg msg.params
  let (ok, token) ← extractString json (ascii "auth_token")
  if ok then token.text json else return []

def extractAuthToken (s : AdapterState σ) (msg : MCPMessage) :
    Except Fault (Bytes × AdapterState σ) := do
  match server.extractAuthToken with
  | some f => return f s msg
  | none => return (← defaultAuthToken msg, s)

/-- The authentication step on a token: the user, or the message of the refusal.
The clock is read twice. -/
def authenticate (hmac : Bytes → Bytes → Digest) (h : AuthenticationHandler) (now later : Int)
    (authToken : Bytes) : Except Bytes User :=
  if authToken.isEmpty then .error (ascii "Authentication required")
  else
    let auth := h.validateRequest now authToken
    if !auth.allowed then .error auth.error
    else
      let userId := h.decodeToken hmac later authToken
      if userId.isEmpty then .error (ascii "Invalid token: failed to decode user identity")
      else .ok { userId, authenticated := true, role := .user }

/-- `method_is`. -/
def methodIs (msg : MCPMessage) (name : Bytes) : Except Fault Bool := do
  if msg.method.len ≠ name.length then return false
  return (← spanText msg msg.method) = name

/-- What `dispatch` does once the user is known. -/
def authorized (s : AdapterState σ) (msg : MCPMessage) (currentUser : User) :
    Except Fault (AdapterState σ × List Event) := do
  if s.adapter.rbacEnabled && s.adapter.authEnabled then
    let methodName ← spanText msg msg.method
    if !s.adapter.rbac.checkPermission currentUser methodName then
      return (s, [sendError msg.id (-32603) (ascii "Unauthorized")])
  if ← methodIs msg (ascii "initialize") then return (s, handleInitialize s.adapter msg)
  if ← methodIs msg (ascii "tools/list") then return handleToolsList server s msg
  if ← methodIs msg (ascii "tools/call") then
    return ← handleToolsCall server s msg
      (if s.adapter.authEnabled then some currentUser else none)
  return (s, [sendError msg.id (-32601) (ascii "Method not found")])

variable (hmac : Bytes → Bytes → Digest)

def dispatch (now later : Int) (s : AdapterState σ) (msg : MCPMessage) :
    Except Fault (AdapterState σ × List Event) := do
  if !msg.isRequest then return (s, [])
  if msg.id = none then return (s, [])
  if s.adapter.authEnabled then
    let (authToken, s) ← extractAuthToken server s msg
    match authenticate hmac s.adapter.authHandler now later authToken with
    | .error message => return (s, [.extractAuthToken, sendError msg.id (-32603) message])
    | .ok currentUser =>
        let (s, events) ← authorized server s msg currentUser
        return (s, .extractAuthToken :: events)
  else authorized server s msg {}

/-! ## The main loop -/

/-- A line of the input, and the two readings of the clock while it is dispatched. -/
structure Input where
  line : Bytes
  now : Int
  later : Int

/-- Without a trailing carriage return. -/
def stripReturn (line : Bytes) : Bytes :=
  if line.getLast? = some 13 then line.dropLast else line

def runLine (i : Input) (s : AdapterState σ) : Except Fault (AdapterState σ × List Event) := do
  if i.line.isEmpty then return (s, [])
  let msg ← MCPMessage.parse (some (stripReturn i.line)) kDefaultMaxBytes
  if !msg.valid then return (s, [sendError none (-32700) (ascii "Parse error")])
  dispatch server hmac i.now i.later s msg

/-- `run` until the input ends. -/
def run : List Input → AdapterState σ → Except Fault (AdapterState σ × List Event)
  | [], s => return (s, [])
  | i :: inputs, s => do
      let (s, events) ← runLine server hmac i s
      let (s, events') ← run inputs s
      return (s, events ++ events')

end handlers

end MCPAdapter

end McpToolkit
