import McpToolkit.Base.Decimal
/-!
# The message builder

`JsonBuilder` as the sources have it: a buffer and calls that append to it.  Keys
and values are C strings, which end at the first NUL.
-/

namespace McpToolkit

/-- The text of a C string. -/
def cString (s : Bytes) : Bytes := s.takeWhile (· ≠ 0)

/-- What `append_escaped` appends for one octet. -/
def escapeByte (b : UInt8) : Bytes :=
  if b = quote then [backslash, quote]
  else if b = backslash then [backslash, backslash]
  else if b = 8 then [backslash, 0x62]
  else if b = 12 then [backslash, 0x66]
  else if b = newline then [backslash, 0x6E]
  else if b = 13 then [backslash, 0x72]
  else if b = 9 then [backslash, 0x74]
  else if b < 0x20 then [backslash, 0x75, 0x30, 0x30, hexDigit (b / 16), hexDigit (b % 16)]
  else [b]

structure JsonBuilder where
  buffer : Bytes := []

namespace JsonBuilder

def append (b : JsonBuilder) (s : Bytes) : JsonBuilder := ⟨b.buffer ++ s⟩

def appendEscaped (b : JsonBuilder) (s : Bytes) : JsonBuilder :=
  b.append ((cString s).flatMap escapeByte)

/-- A comma, unless the buffer is empty or ends with `opening`. -/
def separate (b : JsonBuilder) (opening : UInt8) : JsonBuilder :=
  if b.buffer ≠ [] ∧ b.buffer.getLast? ≠ some opening then b.append [comma] else b

/-- The key of a field and a colon, behind a comma if one is needed. -/
def fieldKey (b : JsonBuilder) (key : Bytes) : JsonBuilder :=
  (((b.separate lbrace).append [quote]).append (cString key)).append [quote, colon]

def startObject (b : JsonBuilder) : JsonBuilder := b.append [lbrace]

def endObject (b : JsonBuilder) : JsonBuilder := b.append [rbrace]

def addField (b : JsonBuilder) (key value : Bytes) : JsonBuilder :=
  (((b.fieldKey key).append [quote]).appendEscaped value).append [quote]

def addFieldNumber (b : JsonBuilder) (key : Bytes) (value : Int) : JsonBuilder :=
  (b.fieldKey key).append (toDecimal value)

def addFieldBool (b : JsonBuilder) (key : Bytes) (value : Bool) : JsonBuilder :=
  (b.fieldKey key).append (if value then ascii "true" else ascii "false")

/-- Alone among the fields, this one needs no comma behind an opening bracket
either. -/
def addFieldRaw (b : JsonBuilder) (key value : Bytes) : JsonBuilder :=
  let b := if b.buffer.getLast? = some lbracket then b else b.separate lbrace
  (((b.append [quote]).append (cString key)).append [quote, colon]).append (cString value)

def addObjectField (b : JsonBuilder) (key : Bytes) : JsonBuilder := (b.fieldKey key).append [lbrace]

def closeObjectField (b : JsonBuilder) : JsonBuilder := b.append [rbrace]

def addArrayField (b : JsonBuilder) (key : Bytes) : JsonBuilder := (b.fieldKey key).append [lbracket]

def closeArrayField (b : JsonBuilder) : JsonBuilder := b.append [rbracket]

def addArrayElement (b : JsonBuilder) (value : Bytes) : JsonBuilder :=
  (((b.separate lbracket).append [quote]).appendEscaped value).append [quote]

def addArrayElementRaw (b : JsonBuilder) (value : Bytes) : JsonBuilder :=
  (b.separate lbracket).append (cString value)

def get (b : JsonBuilder) : Bytes := b.buffer

def reset (_ : JsonBuilder) : JsonBuilder := {}

end JsonBuilder

end McpToolkit
