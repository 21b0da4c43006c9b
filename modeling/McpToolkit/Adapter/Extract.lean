import McpToolkit.Base.Memory
/-!
# Reading the params

The two functions of `MCPAdapter` that look for a key in the text of the params,
as the sources have them.  `json` is that text; a pointer into it is an index
`p`, `end` is its length, and every read is checked against it.  The pointers
themselves may run past the end, as they do after a trailing backslash.
-/

namespace McpToolkit

namespace MCPAdapter

/-- `memchr`: the first `b` among the `n` octets from `p` on. -/
def memchr (buf : Bytes) (p : Nat) (b : UInt8) (n : Nat) : Except Fault (Option Nat) := do
  let s ← bytesAt buf p n
  return (s.idxOf? b).map (p + ·)

/-- The number of passes that no loop over the text needs. -/
def passes (json : Bytes) : Nat := json.length + 1

/-- The loop `while (p < end && test(*p)) ++p`. -/
def skipWhilePass (json : Bytes) (test : UInt8 → Bool) (p : Nat) :
    Except Fault (Pass Nat Nat) := do
  if p < json.length then
    if test (← byteAt json p) then return .next (p + 1)
    return .done p
  else return .done p

def skipWhile (json : Bytes) (test : UInt8 → Bool) (p : Nat) : Except Fault Nat :=
  loop (skipWhilePass json test) .passes (passes json) p

/-- The white space that both functions skip. -/
def skipBlanks (json : Bytes) (p : Nat) : Except Fault Nat := skipWhile json isBlank p

/-- Blanks and then `b`, which both functions do for the colon: the pointer behind
it, `none` where it does not stand there. -/
def skipPast (json : Bytes) (b : UInt8) (p : Nat) : Except Fault (Option Nat) := do
  let p ← skipBlanks json p
  if p ≥ json.length then return none
  if (← byteAt json p) ≠ b then return none
  return some (p + 1)

/-- The loop of `extract_string` up to the closing quote, over escapes. -/
def contentPass (json : Bytes) (p : Nat) : Except Fault (Pass Nat Nat) := do
  if p < json.length then
    let c ← byteAt json p
    if c = quote then return .done p
    if c = backslash ∧ p + 1 < json.length then return .next (p + 2)
    return .next (p + 1)
  else return .done p

/-- One pass of the search for a key, which both functions make: the next quote and,
behind it, the key and its closing quote.  What to do there depends on the
function, which may also go on behind the first quote.  Without another quote the
result is `missing`, and so it is at the end of the text. -/
def searchPass {α : Type} (json key : Bytes) (missing : α)
    (found : Nat → Nat → Except Fault (Pass Nat α)) (p : Nat) : Except Fault (Pass Nat α) := do
  if p < json.length then
    match ← memchr json p quote (json.length - p) with
    | none => return .done missing
    | some q =>
        let p := q + 1
        if p + key.length + 1 > json.length then return .done missing
        if (← bytesAt json p key.length) ≠ key then return .next (q + 1)
        let p := p + key.length
        if p ≥ json.length then return .next (q + 1)
        if (← byteAt json p) ≠ quote then return .next (q + 1)
        found (q + 1) (p + 1)
  else return .done missing

/-- What `extract_string` does behind a key. -/
def stringBehind (json : Bytes) (next p : Nat) : Except Fault (Pass Nat (Bool × Span)) := do
  let some p ← skipPast json colon p | return .next next
  let some start ← skipPast json quote p | return .next next
  let p ← loop (contentPass json) .passes (passes json) start
  if p ≥ json.length then return .done (false, {})
  return .done (true, ⟨some start, p - start⟩)

/-- Find `"key":"<value>"` in a JSON object and return the content of the
string as a span, without the quotes. -/
def extractString (json key : Bytes) : Except Fault (Bool × Span) :=
  loop (searchPass json key (false, {}) (stringBehind json)) .passes (passes json) 0

/-- The loop over a container, which counts the brackets of its own kind. -/
def containerPass (json : Bytes) (opening closing : UInt8) :
    Nat × Nat × Bool → Except Fault (Pass (Nat × Nat × Bool) Nat)
  | (p, depth, inStr) => do
    if p < json.length then
      let c ← byteAt json p
      if inStr then
        if c = backslash then return .next (p + 2, depth, true)
        if c = quote then return .next (p + 1, depth, false)
        return .next (p + 1, depth, true)
      if c = quote then return .next (p + 1, depth, true)
      if c = opening then return .next (p + 1, depth + 1, false)
      if c = closing then
        if depth - 1 = 0 then return .done (p + 1)
        return .next (p + 1, depth - 1, false)
      return .next (p + 1, depth, false)
    else return .done p

/-- The loop of `extract_value_span` over a string. -/
def stringPass (json : Bytes) (p : Nat) : Except Fault (Pass Nat Nat) := do
  if p < json.length then
    let c ← byteAt json p
    if c = quote then return .done p
    if c = backslash then return .next (p + 2)
    return .next (p + 1)
  else return .done p

/-- The three ways to delimit a value, by its first octet. -/
def valueEnd (json : Bytes) (p : Nat) : Except Fault Nat := do
  let c ← byteAt json p
  if c = lbrace || c = lbracket then
    let closing := if c = lbrace then rbrace else rbracket
    loop (containerPass json c closing) .passes (passes json) (p, 0, false)
  else if c = quote then
    let p ← loop (stringPass json) .passes (passes json) (p + 1)
    if p < json.length then return p + 1
    return p
  else skipWhile json (fun b => b ≠ comma && b ≠ rbrace && b ≠ rbracket) p

/-- Locate the raw value span for a key inside a JSON object. -/
def extractValueSpan (json key : Bytes) (out : Span) : Except Fault (Bool × Span) := do
  match ← loop (searchPass json key none fun _ p => .ok (.done (some p))) .passes (passes json) 0 with
  | none => return (false, out)
  | some p =>
      if p ≥ json.length then return (false, out)
      let some p ← skipPast json colon p | return (false, out)
      let p ← skipBlanks json p
      if p ≥ json.length then return (false, out)
      let stop ← valueEnd json p
      return (true, ⟨some p, stop - p⟩)

end MCPAdapter

end McpToolkit
