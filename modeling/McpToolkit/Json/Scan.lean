import McpToolkit.Json.Parser
/-!
# The scanners as functions on the unread input

`JsonParser` moves an index; what each scanner decides depends only on the
octets from that index on.  Here the scanners are functions of those octets,
structurally recursive where the sources loop, that return what they leave
unread (`none` for `false`).  `McpToolkit.Json.Refine` shows that the parser
computes them.
-/

namespace McpToolkit

/-- A stretch of text, as the unread input at its two ends. -/
structure Slice where
  start : Bytes
  stop : Bytes

namespace Slice

/-- The octets of a slice. -/
def text (s : Slice) : Bytes := s.start.take (s.start.length - s.stop.length)

/-- The span of a slice in a buffer of the given length. -/
def span (s : Slice) (len : Nat) : Span :=
  ⟨some (len - s.start.length), s.start.length - s.stop.length⟩

@[simp] theorem text_append (t r : Bytes) : text ⟨t ++ r, r⟩ = t := by
  simp [text]

end Slice

namespace Scan

/-- After an opening quote: what follows the closing one. -/
def string : Bytes → Option Bytes
  | [] => none
  | b :: t =>
      if b = quote then some t
      else if b = backslash then
        match t with
        | [] => none
        | _ :: t' => string t'
      else string t

@[simp] theorem string_quote (t : Bytes) : string (quote :: t) = some t := by
  rw [string.eq_def]
  exact if_pos rfl

@[simp] theorem string_truncated : string [backslash] = none := by
  decide

@[simp] theorem string_escape (e : UInt8) (t : Bytes) :
    string (backslash :: e :: t) = string t := by
  rw [string, if_neg (by decide), if_pos rfl]

theorem string_cons {b : UInt8} (hq : b ≠ quote) (hb : b ≠ backslash) (t : Bytes) :
    string (b :: t) = string t := by
  rw [string.eq_def]
  exact (if_neg hq).trans (if_neg hb)

theorem string_suffix {l r : Bytes} (h : string l = some r) : r <:+ l := by
  induction l using string.induct with
  | case1 => cases h
  | case2 t =>
      rw [string_quote] at h
      cases h
      exact List.suffix_cons _ _
  | case3 => cases h
  | case4 e t hq ih =>
      rw [string_escape] at h
      exact (ih h).trans ((List.suffix_cons _ _).trans (List.suffix_cons _ _))
  | case5 b t hq hb ih =>
      rw [string_cons hq hb] at h
      exact (ih h).trans (List.suffix_cons _ _)

/-- A string with its opening quote. -/
def quoted : Bytes → Option Bytes
  | [] => none
  | b :: t => if b = quote then string t else none

/-- Where a lexer of JSON text stands. -/
inductive Mode where
  | code
  | string
  | escape
  deriving DecidableEq

/-- The effect of one octet on the lexer. -/
def Mode.next : Mode → UInt8 → Mode
  | .code, b => if b = quote then .string else .code
  | .string, b => if b = quote then .code else if b = backslash then .escape else .string
  | .escape, _ => .string

/-- Inside a container, `depth` of whose own opening brackets are unmatched:
what follows the bracket that closes it.  Only brackets of the container's own
kind count. -/
def container (opening closing : UInt8) : Mode → Nat → Bytes → Option Bytes
  | _, _, [] => none
  | .code, depth, b :: t =>
      if b = quote then container opening closing .string depth t
      else if b = opening then
        if depth + 1 > JsonParser.kMaxDepth then none
        else container opening closing .code (depth + 1) t
      else if b = closing then
        if depth = 1 then some t else container opening closing .code (depth - 1) t
      else container opening closing .code depth t
  | m, depth, b :: t => container opening closing (m.next b) depth t

section container

variable (opening closing : UInt8) (depth : Nat)

theorem container_code_quote (t : Bytes) :
    container opening closing .code depth (quote :: t) =
      container opening closing .string depth t := by
  rw [container.eq_def]
  exact if_pos rfl

theorem container_code_cons {b : UInt8} (hq : b ≠ quote) (t : Bytes) :
    container opening closing .code depth (b :: t) =
      if b = opening then
        if depth + 1 > JsonParser.kMaxDepth then none
        else container opening closing .code (depth + 1) t
      else if b = closing then
        if depth = 1 then some t else container opening closing .code (depth - 1) t
      else container opening closing .code depth t := by
  rw [container.eq_def]
  exact if_neg hq

theorem container_string_cons (b : UInt8) (t : Bytes) :
    container opening closing .string depth (b :: t) =
      container opening closing (Mode.string.next b) depth t := rfl

/-- Inside a string the container scanner does what the string scanner does. -/
theorem container_string (l : Bytes) :
    container opening closing .string depth l =
      (string l).bind (container opening closing .code depth) := by
  induction l using string.induct with
  | case1 => rfl
  | case2 t =>
      rw [string_quote, container_string_cons]
      rfl
  | case3 => rfl
  | case4 e t hq ih =>
      rw [string_escape, ← ih]
      rfl
  | case5 b t hq hb ih =>
      rw [string_cons hq hb, ← ih, container_string_cons, Mode.next, if_neg hq, if_neg hb]

end container

def literal (word : Bytes) (l : Bytes) : Option Bytes :=
  if word <+: l then some (l.drop word.length) else none

/-- The first octet is there and `test` accepts it. -/
def startsWith (test : UInt8 → Bool) : Bytes → Bool
  | [] => false
  | b :: _ => test b

/-- Drop the first octet if `test` accepts it, and say whether. -/
def takeIf (test : UInt8 → Bool) (l : Bytes) : Bool × Bytes :=
  if startsWith test l then (true, l.tail) else (false, l)

/-- What is left after an optional fraction. -/
def fraction (l : Bytes) : Bytes :=
  if startsWith (· = point) l then l.tail.dropWhile isdigit else l

/-- What is left after an optional exponent. -/
def exponent (l : Bytes) : Bytes :=
  if startsWith (fun b => b = lowerE || b = upperE) l then
    (takeIf (fun b => b = plus || b = minus) l.tail).2.dropWhile isdigit
  else l

def number (l : Bytes) : Option Bytes :=
  let (negative, l) := takeIf (· = minus) l
  if negative && !startsWith isdigit l then none
  else some (exponent (fraction (l.dropWhile isdigit)))

/-- Any value, at its first octet. -/
def value : Bytes → Option Bytes
  | [] => none
  | c :: t =>
      if c = quote then string t
      else if c = lbrace then container lbrace rbrace .code 1 t
      else if c = lbracket then container lbracket rbracket .code 1 t
      else if c = 0x74 then literal (ascii "true") (c :: t)
      else if c = 0x66 then literal (ascii "false") (c :: t)
      else if c = 0x6E then literal (ascii "null") (c :: t)
      else if c = minus || isdigit c then number (c :: t)
      else none

/-- Leading white space, as `skip_ws` sees it. -/
def blanks (l : Bytes) : Bytes := l.dropWhile isspace

/-- White space and a value. -/
def skipped (l : Bytes) : Option Slice :=
  (value (blanks l)).map fun r => ⟨blanks l, r⟩

/-- White space and a string: the slice of its content, and what follows. -/
def content (l : Bytes) : Option (Slice × Bytes) :=
  match blanks l with
  | [] => none
  | b :: t => if b = quote then (string t).map fun r => (⟨t, quote :: r⟩, r) else none

/-- The digits of an integer, over the value read so far. -/
def digits : Nat → Bytes → Option (Nat × Bytes)
  | val, [] => some (val, [])
  | val, b :: t =>
      if isdigit b then
        if val * 10 + digitValue b > JsonParser.intMax then none
        else digits (val * 10 + digitValue b) t
      else some (val, b :: t)

/-- White space and an integer literal. -/
def int (l : Bytes) : Option (Int × Bytes) :=
  let (negative, l) := takeIf (· = minus) (blanks l)
  if startsWith isdigit l then
    (digits 0 l).map fun (val, r) => (if negative then -(val : Int) else (val : Int), r)
  else none

/-- White space and one octet. -/
def symbol (b : UInt8) (l : Bytes) : Option Bytes :=
  match blanks l with
  | [] => none
  | c :: t => if c = b then some t else none

/-- After a member: a comma, or a closing brace that stays unread. -/
def separator (l : Bytes) : Option Bytes :=
  match blanks l with
  | [] => none
  | b :: t => if b = comma then some t else if b = rbrace then some (b :: t) else none

/-! ## Members -/

section members

variable {μ : Type} (read : Bytes → Bytes → Option (μ × Bytes))

/-- After a value: what separates it from the next member. -/
def valued (key l : Bytes) : Option (μ × Bytes) := do
  let (m, l) ← read key l
  let l ← separator l
  return (m, l)

/-- A key, a colon, a value, and the comma after it if there is one. -/
def member (l : Bytes) : Option (μ × Bytes) := do
  let (key, l) ← content l
  let l ← symbol colon l
  valued read key.text l

/-- At most `n` members and the closing brace. -/
def membersWithin : Nat → Bytes → Option (List μ × Bytes)
  | 0, _ => none
  | n + 1, l =>
      match symbol rbrace l with
      | some r => some ([], r)
      | none => do
          let (m, l) ← member read l
          let (ms, r) ← membersWithin n l
          some (m :: ms, r)

/-- The members of an object after its opening brace. -/
def members (l : Bytes) : Option (List μ × Bytes) :=
  membersWithin read (l.length + 1) l

/-- An object with its braces. -/
def object (l : Bytes) : Option (List μ × Bytes) :=
  (symbol lbrace l).bind (members read)

end members

end Scan

/-- A member of an error object. -/
inductive ErrorField where
  | code (n : Int)
  | message (s : Slice)
  | other (v : Slice)

/-- A member of the top-level object. -/
inductive TopField where
  | method (s : Slice)
  | id (n : Int)
  | params (v : Slice)
  | result (v : Slice)
  | error (fields : List ErrorField) (v : Slice)
  /-- `jsonrpc` and the members with an unknown key. -/
  | other (v : Slice)

namespace Scan

def errorField (key l : Bytes) : Option (ErrorField × Bytes) :=
  if key = ascii "code" then (int l).map fun (n, r) => (.code n, r)
  else if key = ascii "message" then (content l).map fun (s, r) => (.message s, r)
  else (skipped l).map fun v => (.other v, v.stop)

def topField (key l : Bytes) : Option (TopField × Bytes) :=
  if key = ascii "jsonrpc" then (skipped l).map fun v => (.other v, v.stop)
  else if key = ascii "method" then (content l).map fun (s, r) => (.method s, r)
  else if key = ascii "id" then (int l).map fun (n, r) => (.id n, r)
  else if key = ascii "params" then (skipped l).map fun v => (.params v, v.stop)
  else if key = ascii "result" then (skipped l).map fun v => (.result v, v.stop)
  else if key = ascii "error" then
    (object errorField l).map fun (fields, r) => (.error fields ⟨blanks l, r⟩, r)
  else (skipped l).map fun v => (.other v, v.stop)

/-- The whole input: the members of its first object, and what is left unread. -/
def top (l : Bytes) : Option (List TopField × Bytes) := object topField l

end Scan

end McpToolkit
