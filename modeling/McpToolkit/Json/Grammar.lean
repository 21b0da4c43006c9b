import McpToolkit.Base.Bytes
/-!
# The grammar of JSON texts

Concrete syntax trees of RFC 8259 with all their white space.  Each tree carries
the proofs that its parts are of the right octets, so that the text of a tree is
a JSON text and every JSON text is the text of a tree.  Octets from 0x80 on are
allowed in strings one by one; the grammar does not look at their encoding.
-/

namespace McpToolkit

/-! ## Tokens -/

/-- The kinds of JSON containers. -/
inductive Kind where
  | array
  | object
  deriving DecidableEq

namespace Kind

def opening : Kind → UInt8
  | .array => lbracket
  | .object => lbrace

def closing : Kind → UInt8
  | .array => rbracket
  | .object => rbrace

def other : Kind → Kind
  | .array => .object
  | .object => .array

theorem other_ne (k : Kind) : k.other ≠ k := by
  cases k <;> decide

theorem eq_or_other (k i : Kind) : i = k ∨ i = k.other := by
  cases k <;> cases i <;> decide

end Kind

/-- Insignificant white space. -/
structure Ws where
  text : Bytes
  blank : ∀ b ∈ text, isBlank b

def Ws.none : Ws := ⟨[], fun _ h => nomatch h⟩

def isHex (b : UInt8) : Bool :=
  isdigit b || (0x41 ≤ b && b ≤ 0x46) || (0x61 ≤ b && b ≤ 0x66)

/-- The letters of the two-character escapes. -/
def escapes : Bytes := ascii "\"\\/bfnrt"

inductive StrChar where
  | plain (b : UInt8) (h : 0x20 ≤ b ∧ b ≠ quote ∧ b ≠ backslash)
  | escape (e : UInt8) (h : e ∈ escapes)
  | unicode (a b c d : UInt8) (h : ∀ x ∈ [a, b, c, d], isHex x)

def StrChar.text : StrChar → Bytes
  | .plain b _ => [b]
  | .escape e _ => [backslash, e]
  | .unicode a b c d _ => [backslash, 0x75, a, b, c, d]

/-- What stands between the quotes of a string. -/
structure Str where
  chars : List StrChar

/-- The raw text of a string. -/
def Str.text (s : Str) : Bytes := s.chars.flatMap StrChar.text

/-- The octets that need no escape in a string. -/
def isStrChar (b : UInt8) : Bool := 0x20 ≤ b && b ≠ quote && b ≠ backslash

theorem of_isStrChar {b : UInt8} (h : isStrChar b) : 0x20 ≤ b ∧ b ≠ quote ∧ b ≠ backslash := by
  simpa [isStrChar, and_assoc] using h

/-- A string without escapes. -/
def Str.plain (s : Bytes) (h : s.all isStrChar) : Str :=
  ⟨s.attach.map fun b => .plain b.1 (of_isStrChar (List.all_eq_true.mp h b.1 b.2))⟩

@[simp] theorem Str.plain_text (s : Bytes) (h : s.all isStrChar) : (Str.plain s h).text = s := by
  simp [Str.text, Str.plain, List.flatMap_map, StrChar.text]

/-- One digit or more. -/
structure Digits where
  text : Bytes
  ne_nil : text ≠ []
  digit : ∀ b ∈ text, isdigit b

structure Exponent where
  letter : UInt8
  isLetter : letter = lowerE ∨ letter = upperE
  sign : Option UInt8
  isSign : ∀ b ∈ sign, b = plus ∨ b = minus
  digits : Digits

def Exponent.text (e : Exponent) : Bytes := e.letter :: e.sign.toList ++ e.digits.text

structure Number where
  negative : Bool
  int : Digits
  /-- No leading zero. -/
  shape : int.text.head? = some 0x30 → int.text.length = 1
  frac : Option Digits
  exp : Option Exponent

namespace Number

def fracText (n : Number) : Bytes :=
  match n.frac with
  | none => []
  | some d => point :: d.text

def expText (n : Number) : Bytes :=
  match n.exp with
  | none => []
  | some e => e.text

def text (n : Number) : Bytes :=
  (if n.negative then [minus] else []) ++ n.int.text ++ n.fracText ++ n.expText

end Number

/-- The number that a run of digits continues. -/
def natFrom (n : Nat) (ds : Bytes) : Nat := ds.foldl (fun n b => n * 10 + digitValue b) n

/-- The value of an integer literal, one without fraction and exponent. -/
def Number.toInt? (n : Number) : Option Int :=
  if n.frac.isNone ∧ n.exp.isNone then
    some (if n.negative then -(natFrom 0 n.int.text : Int) else (natFrom 0 n.int.text : Int))
  else none

inductive Literal where
  | true
  | false
  | null

def Literal.text : Literal → Bytes
  | .true => ascii "true"
  | .false => ascii "false"
  | .null => ascii "null"

/-! ## Values -/

/-- What stands in front of a value in a container: a key and a colon in an
object, nothing in an array. -/
inductive Label : Kind → Type where
  | element : Label .array
  | key (s : Str) (w w' : Ws) : Label .object

mutual

inductive Value where
  | literal (l : Literal)
  | number (n : Number)
  | string (s : Str)
  | empty (k : Kind) (w : Ws)
  | container (k : Kind) (es : Entries k)

/-- The entries of a container that is not empty. -/
inductive Entries : Kind → Type where
  | last {k : Kind} (w : Ws) (l : Label k) (v : Value) (w' : Ws) : Entries k
  | more {k : Kind} (w : Ws) (l : Label k) (v : Value) (w' : Ws) (es : Entries k) : Entries k

end

def Label.text : {k : Kind} → Label k → Bytes
  | _, .element => []
  | _, .key s w w' => quote :: s.text ++ quote :: w.text ++ colon :: w'.text

mutual

def Value.text : Value → Bytes
  | .literal l => l.text
  | .number n => n.text
  | .string s => quote :: s.text ++ [quote]
  | .empty k w => k.opening :: w.text ++ [k.closing]
  | .container k es => k.opening :: es.text ++ [k.closing]

def Entries.text : {k : Kind} → Entries k → Bytes
  | _, .last w l v w' => w.text ++ l.text ++ v.text ++ w'.text
  | _, .more w l v w' es => w.text ++ l.text ++ v.text ++ w'.text ++ comma :: es.text

end

mutual

/-- How deep a value nests containers, itself included. -/
def Value.depth : Value → Nat
  | .literal _ => 0
  | .number _ => 0
  | .string _ => 0
  | .empty _ _ => 1
  | .container _ es => es.depth + 1

def Entries.depth : {k : Kind} → Entries k → Nat
  | _, .last _ _ v _ => v.depth
  | _, .more _ _ v _ es => max v.depth es.depth

end

/-- The raw text of a key. -/
def Label.name : {k : Kind} → Label k → Bytes
  | _, .element => []
  | _, .key s _ _ => s.text

/-- The entries of a container with the names in front of them. -/
def Entries.members : {k : Kind} → Entries k → List (Bytes × Value)
  | _, .last _ l v _ => [(l.name, v)]
  | _, .more _ l v _ es => (l.name, v) :: es.members

namespace Value

def members : Value → List (Bytes × Value)
  | .container .object es => es.members
  | _ => []

def isObject : Value → Bool
  | .empty .object _ => true
  | .container .object _ => true
  | _ => false

/-- The raw text of a string. -/
def string? : Value → Option Bytes
  | .string s => some s.text
  | _ => none

/-- The value of an integer literal. -/
def int? : Value → Option Int
  | .number n => n.toInt?
  | _ => none

end Value

end McpToolkit
