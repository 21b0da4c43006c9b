import McpToolkit.Json.Message
/-!
# The zero-copy parser

`JsonParser` as the sources have it: one cursor `pos` into an immutable
buffer, moved by a handful of scanners that report success as a `Bool`.  Every
loop is a `loop` whose pass is named after the scanner, and every read and
every step of the cursor is checked.
-/

namespace McpToolkit

/-- The parser's members. -/
structure JsonParser where
  input : Bytes
  pos : Nat
  maxBytes : Nat

namespace JsonParser

/-- Maximum nesting depth for objects and arrays. -/
def kMaxDepth : Nat := 64

/-- `INT_MAX`, the largest magnitude `parse_int` lets through. -/
def intMax : Nat := 2147483647

def len (p : JsonParser) : Nat := p.input.length

/-- `input[pos]`. -/
def peek (p : JsonParser) : Except Fault UInt8 := byteAt p.input p.pos

/-- `pos += n`. -/
def advance (p : JsonParser) (n : Nat) : Except Fault JsonParser :=
  if p.pos + n ≤ p.len then .ok { p with pos := p.pos + n }
  else .error (.cursor (p.pos + n))

/-- The number of passes that no loop over the buffer needs. -/
def passes (p : JsonParser) : Nat := p.len + 1

/-- The loop `while (pos < len && test(input[pos])) ++pos`. -/
def skipWhilePass (test : UInt8 → Bool) (p : JsonParser) :
    Except Fault (Pass JsonParser JsonParser) := do
  if p.pos < p.len then
    if test (← p.peek) then return .next (← p.advance 1)
    return .done p
  else return .done p

def skipWhile (p : JsonParser) (test : UInt8 → Bool) : Except Fault JsonParser :=
  loop (skipWhilePass test) .passes p.passes p

def skipWs (p : JsonParser) : Except Fault JsonParser := p.skipWhile isspace

def skipDigits (p : JsonParser) : Except Fault JsonParser := p.skipWhile isdigit

/-- The loop that `skip_string` and `parse_string` share: up to the closing
quote, over escapes.  It leaves with `false` on a truncated escape. -/
def stringPass (p : JsonParser) : Except Fault (Pass JsonParser (Bool × JsonParser)) := do
  if p.pos < p.len then
    let c ← p.peek
    if c = quote then return .done (true, p)
    if c = backslash then
      let p ← p.advance 1
      if p.pos ≥ p.len then return .done (false, p)
      return .next (← p.advance 1)
    return .next (← p.advance 1)
  else return .done (true, p)

/-- Advance past a JSON string. `pos` must be on the opening quote. -/
def skipString (p : JsonParser) : Except Fault (Bool × JsonParser) := do
  if p.pos ≥ p.len then return (false, p)
  if (← p.peek) ≠ quote then return (false, p)
  let p ← p.advance 1
  let (ok, p) ← loop stringPass .passes p.passes p
  if !ok then return (false, p)
  if p.pos ≥ p.len then return (false, p)
  return (true, ← p.advance 1)

def skipContainerPass (opening closing : UInt8) :
    JsonParser × Nat → Except Fault (Pass (JsonParser × Nat) (Bool × JsonParser))
  | (p, depth) => do
    if p.pos < p.len ∧ depth > 0 then
      let c ← p.peek
      if c = quote then
        let (ok, p) ← p.skipString
        if !ok then return .done (false, p)
        return .next (p, depth)
      let p ← p.advance 1
      if c = opening then
        if depth + 1 > kMaxDepth then return .done (false, p)
        return .next (p, depth + 1)
      if c = closing then return .next (p, depth - 1)
      return .next (p, depth)
    else return .done (depth = 0, p)

/-- Advance past a container. `pos` must be on `opening`. -/
def skipContainer (p : JsonParser) (opening closing : UInt8) :
    Except Fault (Bool × JsonParser) := do
  if p.pos ≥ p.len then return (false, p)
  if (← p.peek) ≠ opening then return (false, p)
  let p ← p.advance 1
  loop (skipContainerPass opening closing) .passes p.passes (p, 1)

/-- `true`, `false` and `null`. -/
def skipLiteral (p : JsonParser) (word : Bytes) : Except Fault (Bool × JsonParser) := do
  if p.len - p.pos < word.length then return (false, p)
  if (← bytesAt p.input p.pos word.length) ≠ word then return (false, p)
  return (true, ← p.advance word.length)

/-- Step over the octet at `pos` if `test` accepts it, and say whether. -/
def skipIf (p : JsonParser) (test : UInt8 → Bool) : Except Fault (Bool × JsonParser) := do
  if p.pos < p.len then
    if test (← p.peek) then return (true, ← p.advance 1)
    return (false, p)
  else return (false, p)

/-- A decimal point and the digits after it, if there is one. -/
def skipFraction (p : JsonParser) : Except Fault JsonParser := do
  let (fraction, p) ← p.skipIf (· = point)
  if fraction then p.skipDigits else return p

/-- An exponent, if there is one. -/
def skipExponent (p : JsonParser) : Except Fault JsonParser := do
  let (exponent, p) ← p.skipIf fun b => b = lowerE || b = upperE
  if exponent then
    let (_, p) ← p.skipIf fun b => b = plus || b = minus
    p.skipDigits
  else return p

/-- The number branch of `skip_value`, entered on a minus sign or a digit. -/
def skipNumber (p : JsonParser) : Except Fault (Bool × JsonParser) := do
  let (negative, p) ← p.skipIf (· = minus)
  if negative then
    if p.pos ≥ p.len then return (false, p)
    if !isdigit (← p.peek) then return (false, p)
  let p ← p.skipDigits
  let p ← p.skipFraction
  return (true, ← p.skipExponent)

/-- The branches of `skip_value`, on the first octet of the value. -/
def skipBranch (p : JsonParser) (c : UInt8) : Except Fault (Bool × JsonParser) :=
  if c = quote then p.skipString
  else if c = lbrace then p.skipContainer lbrace rbrace
  else if c = lbracket then p.skipContainer lbracket rbracket
  else if c = 0x74 then p.skipLiteral (ascii "true")
  else if c = 0x66 then p.skipLiteral (ascii "false")
  else if c = 0x6E then p.skipLiteral (ascii "null")
  else if c = minus || isdigit c then p.skipNumber
  else .ok (false, p)

/-- Advance past any JSON value. `out` receives the span of the value, when
there is one. -/
def skipValue (p : JsonParser) (out : Span) : Except Fault (Bool × Span × JsonParser) := do
  let p ← p.skipWs
  if p.pos ≥ p.len then return (false, out, p)
  let start := p.pos
  let (ok, p) ← p.skipBranch (← p.peek)
  if !ok then return (false, out, p)
  return (true, ⟨some start, p.pos - start⟩, p)

/-- Parse a JSON string value; `str` receives its content without the quotes.
A string that does not end leaves its start in `str`. -/
def parseString (p : JsonParser) (str : Span) : Except Fault (Bool × Span × JsonParser) := do
  let p ← p.skipWs
  if p.pos ≥ p.len then return (false, str, p)
  if (← p.peek) ≠ quote then return (false, str, p)
  let p ← p.advance 1
  let start := p.pos
  let (ok, p) ← loop stringPass .passes p.passes p
  if !ok then return (false, { str with start := some start }, p)
  if p.pos ≥ p.len then return (false, { str with start := some start }, p)
  return (true, ⟨some start, p.pos - start⟩, ← p.advance 1)

def parseIntPass :
    JsonParser × Nat → Except Fault (Pass (JsonParser × Nat) (Option Nat × JsonParser))
  | (p, val) => do
    if p.pos < p.len then
      let c ← p.peek
      if isdigit c then
        let val ← longLong (val * 10 + digitValue c)
        if val > intMax then return .done (none, p)
        return .next (← p.advance 1, val)
      return .done (some val, p)
    else return .done (some val, p)

/-- Parse a JSON integer into `num`. -/
def parseInt (p : JsonParser) (num : Int) : Except Fault (Bool × Int × JsonParser) := do
  let p ← p.skipWs
  if p.pos ≥ p.len then return (false, num, p)
  let (negative, p) ← p.skipIf (· = minus)
  if p.pos ≥ p.len then return (false, num, p)
  if !isdigit (← p.peek) then return (false, num, p)
  let (val, p) ← loop parseIntPass .passes p.passes (p, 0)
  match val with
  | none => return (false, num, p)
  | some val => return (true, if negative then -(val : Int) else (val : Int), p)

/-- How a member's value is read, given its key. -/
abbrev MemberReader :=
  Bytes → JsonParser → MCPMessage → Except Fault (Bool × JsonParser × MCPMessage)

/-- One pass of the loop over the members of an object, which `parse` and
`parse_error_object` share: a closing brace, or a key, a colon, a value, and a
comma or a closing brace that the next pass finds again. -/
def membersPass (readMember : MemberReader) : JsonParser × MCPMessage →
    Except Fault (Pass (JsonParser × MCPMessage) (Bool × JsonParser × MCPMessage))
  | (p, msg) => do
    let p ← p.skipWs
    if p.pos ≥ p.len then return .done (false, p, msg)
    if (← p.peek) = rbrace then return .done (true, ← p.advance 1, msg)
    let (ok, key, p) ← p.parseString {}
    if !ok then return .done (false, p, msg)
    let p ← p.skipWs
    if p.pos ≥ p.len then return .done (false, p, msg)
    if (← p.peek) ≠ colon then return .done (false, p, msg)
    let p ← p.advance 1
    let (ok, p, msg) ← readMember (← key.text p.input) p msg
    if !ok then return .done (false, p, msg)
    let p ← p.skipWs
    if p.pos ≥ p.len then return .done (false, p, msg)
    let c ← p.peek
    if c = comma then return .next (← p.advance 1, msg)
    if c ≠ rbrace then return .done (false, p, msg)
    return .next (p, msg)

/-- An object from its opening brace to its closing one. -/
def parseMembers (readMember : MemberReader) (p : JsonParser) (msg : MCPMessage) :
    Except Fault (Bool × JsonParser × MCPMessage) := do
  let p ← p.skipWs
  if p.pos ≥ p.len then return (false, p, msg)
  if (← p.peek) ≠ lbrace then return (false, p, msg)
  let p ← p.advance 1
  loop (membersPass readMember) .passes p.passes (p, msg)

/-- The members of an error object. -/
def errorMember : MemberReader := fun key p msg => do
  if key = ascii "code" then
    let (ok, code, p) ← p.parseInt msg.errorCode
    return (ok, p, { msg with errorCode := code })
  else if key = ascii "message" then
    let (ok, text, p) ← p.parseString msg.errorMsg
    return (ok, p, { msg with errorMsg := text })
  else
    let (ok, _, p) ← p.skipValue {}
    return (ok, p, msg)

def parseErrorObject (p : JsonParser) (msg : MCPMessage) :
    Except Fault (Bool × JsonParser × MCPMessage) := do
  let (ok, p, msg) ← parseMembers errorMember p msg
  if !ok then return (false, p, msg)
  return (true, p, { msg with hasError := true })

/-- The members of the top-level object. -/
def topMember : MemberReader := fun key p msg => do
  if key = ascii "jsonrpc" then
    let (ok, _, p) ← p.skipValue {}
    return (ok, p, msg)
  else if key = ascii "method" then
    let (ok, text, p) ← p.parseString msg.method
    if !ok then return (false, p, { msg with method := text })
    return (true, p, { msg with method := text, isRequest := true })
  else if key = ascii "id" then
    let (ok, val, p) ← p.parseInt 0
    if !ok then return (false, p, msg)
    return (true, p, { msg with id := some val })
  else if key = ascii "params" then
    let (ok, span, p) ← p.skipValue msg.params
    return (ok, p, { msg with params := span })
  else if key = ascii "result" then
    let (ok, span, p) ← p.skipValue msg.result
    return (ok, p, { msg with isResponse := true, hasResult := true, result := span })
  else if key = ascii "error" then
    let (ok, p, msg) ← p.parseErrorObject msg
    if !ok then return (false, p, msg)
    return (true, p, { msg with isResponse := true })
  else
    let (ok, _, p) ← p.skipValue {}
    return (ok, p, msg)

def parse (p : JsonParser) (msg : MCPMessage) : Except Fault (Bool × MCPMessage) := do
  let msg := { msg with rawInput := some p.input, rawLen := p.len }
  if p.len > p.maxBytes then return (false, { msg with errorCode := parseErrorCode })
  let (ok, _, msg) ← parseMembers topMember p msg
  return (ok, msg)

end JsonParser

/-- `MCPMessage::parse`: the buffer is `none` for a null pointer. -/
def MCPMessage.parse (jsonStr : Option Bytes) (maxBytes : Nat) : Except Fault MCPMessage := do
  match jsonStr with
  | none => return {}
  | some s =>
      if s.length = 0 then return {}
      if s.length > maxBytes then
        return { rawInput := some s, rawLen := s.length, errorCode := parseErrorCode }
      let (valid, msg) ← JsonParser.parse ⟨s, 0, maxBytes⟩ {}
      return { msg with valid := valid }

end McpToolkit
