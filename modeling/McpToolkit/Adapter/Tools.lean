import McpToolkit.Base.Bytes
import McpToolkit.Base.Table
/-!
# Tools

What a server advertises and returns, and the checks on the way: of the definitions
before they are listed, of the arguments before a tool is called, and of arguments
against rules.
-/

namespace McpToolkit

/-- One parameter in a tool's input schema. -/
structure ToolParam where
  name : Bytes
  type : Bytes
  description : Bytes
  required : Bool := false
  deriving Repr, DecidableEq

structure ToolDefinition where
  name : Bytes
  description : Bytes
  params : List ToolParam
  deriving Repr, DecidableEq

structure ToolResult where
  text : Bytes
  isError : Bool := false
  deriving Repr, DecidableEq

namespace MCPAdapter

/-- A newline, a carriage return or a NUL. -/
def hasLineBreak (s : Bytes) : Bool := s.contains newline || s.contains 13 || s.contains 0

/-- What is wrong with a parameter, if anything is. -/
def validateToolParam (param : ToolParam) : Option Bytes :=
  if param.name.isEmpty then some (ascii "Parameter name cannot be empty")
  else if hasLineBreak param.name then
    some (ascii "Parameter name contains invalid control characters")
  else if param.name.length > 256 then some (ascii "Parameter name exceeds maximum length")
  else if param.type.isEmpty ||
      (param.type ≠ ascii "string" && param.type ≠ ascii "integer" &&
        param.type ≠ ascii "boolean" && param.type ≠ ascii "number") then
    some (ascii "Parameter type must be string, integer, boolean, or number")
  else if param.description.length > 1024 then
    some (ascii "Parameter description exceeds maximum length")
  else none

/-- What is wrong with a definition; empty if nothing is. -/
def validateToolDefinition (tool : ToolDefinition) : Bytes :=
  if tool.name.isEmpty then ascii "Tool name cannot be empty"
  else if hasLineBreak tool.name then ascii "Tool name contains invalid control characters"
  else if tool.name.length > 256 then
    ascii "Tool name exceeds maximum length (256 characters)"
  else if tool.description.length > 4096 then
    ascii "Tool description exceeds maximum length (4096 characters)"
  else if tool.params.length > 256 then ascii "Too many parameters (maximum 256)"
  else (tool.params.findSome? validateToolParam).getD []

end MCPAdapter

structure ArgumentValidationRule where
  argName : Bytes
  /-- A regular expression, empty for none. -/
  pattern : Bytes := []
  allowShellMetacharacters : Bool := false
  allowPathTraversal : Bool := false
  deriving Repr, DecidableEq

structure ToolValidationRules where
  toolName : Bytes
  requiredArgs : List ArgumentValidationRule := []
  optionalArgs : List ArgumentValidationRule := []
  /-- Reject unknown arguments. -/
  strictMode : Bool := true
  deriving Repr, DecidableEq

structure InputValidationHandler where
  rules : Table Bytes ToolValidationRules := ∅
  deriving DecidableEq

namespace InputValidationHandler

def metacharacters : Bytes := ascii ";|&$()` \n\r"

def containsShellMetacharacters (value : Bytes) : Bool :=
  value.any fun b => metacharacters.contains b

theorem containsShellMetacharacters_iff {value : Bytes} :
    containsShellMetacharacters value = true ↔ ∃ b ∈ value, b ∈ metacharacters := by
  simp [containsShellMetacharacters]

def encodedPatterns : List Bytes :=
  ["%3b", "%3B", "%7c", "%7C", "%26", "%24", "%28", "%29", "%60", "%3c", "%3C", "%3e", "%3E",
    "%0a", "%0A", "%0d", "%0D"].map ascii

def containsEncodedMetacharacters (value : Bytes) : Bool :=
  encodedPatterns.any fun pattern => pattern <:+: value

theorem containsEncodedMetacharacters_iff {value : Bytes} :
    containsEncodedMetacharacters value = true ↔
      ∃ pattern ∈ encodedPatterns, pattern <:+: value := by
  simp [containsEncodedMetacharacters]

def containsPathTraversal (value : Bytes) : Bool :=
  ascii ".." <:+: value || ascii "~/" <:+: value

def registerToolRules (h : InputValidationHandler) (rules : ToolValidationRules) :
    InputValidationHandler :=
  { h with rules := h.rules.insert rules.toolName rules }

section validate

-- What the library for regular expressions says of a pattern and a text: whether it
-- matches, or the text of the exception.
variable (regexMatch : Bytes → Bytes → Except Bytes Bool)

/-- What is wrong with an argument, if anything is. -/
def validateArgument (rule : ArgumentValidationRule) (value : Bytes) : Option Bytes :=
  if !rule.allowShellMetacharacters && containsShellMetacharacters value then
    some (ascii "Argument '" ++ rule.argName ++ ascii "' contains invalid shell metacharacters")
  else if !rule.allowPathTraversal && containsPathTraversal value then
    some (ascii "Argument '" ++ rule.argName ++
      ascii "' contains invalid path traversal sequences")
  else if containsEncodedMetacharacters value then
    some (ascii "Argument '" ++ rule.argName ++
      ascii "' contains URL-encoded dangerous characters")
  else if rule.pattern.isEmpty then none
  else
    match regexMatch rule.pattern value with
    | .ok true => none
    | .ok false =>
        some (ascii "Argument '" ++ rule.argName ++ ascii "' does not match required pattern")
    | .error what => some (ascii "Regex pattern error: " ++ what)

/-- The names that some rule has. -/
def knownArgs (rules : ToolValidationRules) : List Bytes :=
  (rules.requiredArgs ++ rules.optionalArgs).map (·.argName)

/-- What is wrong with the arguments, if anything is.  They are in the order of their
names, as a `std::map` has them. -/
def validateArguments (h : InputValidationHandler) (toolName : Bytes)
    (arguments : List (Bytes × Bytes)) : Option Bytes :=
  match h.rules.lookup toolName with
  | none => none
  | some toolRules =>
      let required := toolRules.requiredArgs.findSome? fun req =>
        match arguments.lookup req.argName with
        | none => some (ascii "Missing required argument: " ++ req.argName)
        | some value => validateArgument regexMatch req value
      let optional := toolRules.optionalArgs.findSome? fun opt =>
        (arguments.lookup opt.argName).bind (validateArgument regexMatch opt)
      let unknown :=
        if toolRules.strictMode then
          arguments.findSome? fun arg =>
            if (knownArgs toolRules).contains arg.1 then none
            else some (ascii "Unknown argument: " ++ arg.1)
        else none
      required.or (optional.or unknown)

end validate

end InputValidationHandler

end McpToolkit
