import McpToolkit.Base.Memory
/-!
# JSON-RPC messages

The record that `MCPMessage::parse` fills in.  Its `const char*` members point
into the parsed buffer; each pointer and its length form a `Span` here.
-/

namespace McpToolkit

/-- A parsed JSON-RPC 2.0 / MCP message. -/
structure MCPMessage where
  method : Span := {}
  /-- `none` for a notification. -/
  id : Option Int := none
  params : Span := {}
  result : Span := {}
  errorCode : Int := 0
  errorMsg : Span := {}
  isRequest : Bool := false
  isResponse : Bool := false
  hasResult : Bool := false
  hasError : Bool := false
  /-- The parse completed without error. -/
  valid : Bool := false
  /-- The buffer that the spans point into. -/
  rawInput : Option Bytes := none
  rawLen : Nat := 0
  deriving Repr, DecidableEq

/-- Default maximum message size (1 MB). -/
def kDefaultMaxBytes : Nat := 1024 * 1024

/-- The code of a JSON-RPC parse error. -/
def parseErrorCode : Int := -32700

end McpToolkit
