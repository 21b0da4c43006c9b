import McpToolkit.Base.Find
import McpToolkit.Base.Memory
/-!
# Path validation

`PathValidator` as the sources have it.  The file system is behind `weakly_canonical`,
which returns the text of a path or throws; paths are put together as on POSIX.
-/

namespace McpToolkit

structure PathValidationConfig where
  /-- The root directory that is allowed. -/
  baseDirectory : Bytes := []
  allowAbsolutePaths : Bool := false
  deriving Repr, DecidableEq

structure PathValidator where
  config : PathValidationConfig := {}
  configured : Bool := false
  deriving Repr, DecidableEq

namespace PathValidator

def configure (_ : PathValidator) (config : PathValidationConfig) : PathValidator :=
  { config, configured := true }

/-! ## Checks on the text -/

def containsNullByte (path : Bytes) : Bool := path.contains 0

def containsTraversalSequences (path : Bytes) : Bool :=
  ascii ".." <:+: path || ascii "..\\" <:+: path || ascii "~/" <:+: path

def encodedPatterns : List Bytes :=
  ["%2e%2e", "%2E%2E", "%2e%2E", "%2E%2e", "%2f", "%2F", "%5c", "%5C", "%252e", "%252E",
    "%252f", "%252F"].map ascii

/-- The search for `pattern` from `pos`, `none` for `npos`. -/
def findFrom (path pattern : Bytes) (pos : Option Nat) : Option Nat := pos.bind (find path pattern)

/-- One pass of the loop that counts encoded dots.  Both searches assign `pos`, so that the
second one starts where the first one has left it. -/
def dotsPass (path : Bytes) : Nat × Nat → Except Fault (Pass (Nat × Nat) Bool)
  | (pos, dotCount) =>
      let pos := findFrom path (ascii "%2e") (some pos)
      let pos := if pos.isSome then pos else findFrom path (ascii "%2E") pos
      match pos with
      | none => .ok (.done false)
      | some i =>
          if dotCount + 1 ≥ 2 then .ok (.done true) else .ok (.next (i + 1, dotCount + 1))

def containsEncodedTraversal (path : Bytes) : Except Fault Bool :=
  if encodedPatterns.any fun pattern => pattern <:+: path then .ok true
  else loop (dotsPass path) .passes (path.length + 2) (0, 0)

/-- A root directory in front, in either spelling. -/
def startsAtRoot (path : Bytes) : Bool := path.head? = some slash || path.head? = some backslash

/-- A Windows drive letter. -/
def hasDriveLetter : Bytes → Bool
  | letter :: second :: _ => isalpha letter && second = colon
  | _ => false

/-! ## Checks on the file system -/

/-- `base / path`. -/
def joinPath (base path : Bytes) : Bytes :=
  if path.head? = some slash then path
  else if base = [] ∨ base.getLast? = some slash then base ++ path
  else base ++ slash :: path

section filesystem

-- What `std::filesystem::weakly_canonical` returns, or the text of its exception.
variable (weaklyCanonical : Bytes → Except Bytes Bytes)

def validateWithinBase (v : PathValidator) (canonicalPath : Bytes) : Except Bytes Bool := do
  let base ← weaklyCanonical v.config.baseDirectory
  let base := if base ≠ [] ∧ base.getLast? ≠ some slash then base ++ [slash] else base
  return canonicalPath = base || find canonicalPath base 0 = some 0

/-- What is done with the file system. -/
def resolvesWithin (v : PathValidator) (userPath : Bytes) : Except Bytes Bool := do
  let canonical ← weaklyCanonical (joinPath v.config.baseDirectory userPath)
  validateWithinBase weaklyCanonical v canonical

/-- What is wrong with the path, if anything is. -/
def isSafePath (v : PathValidator) (userPath : Bytes) : Except Fault (Option Bytes) := do
  if !v.configured then return some (ascii "PathValidator not configured")
  if containsNullByte userPath then return some (ascii "Path contains null byte")
  if containsTraversalSequences userPath then
    return some (ascii "Path contains directory traversal sequences (..)")
  if ← containsEncodedTraversal userPath then
    return some (ascii "Path contains URL-encoded traversal sequences")
  if !v.config.allowAbsolutePaths && (startsAtRoot userPath || hasDriveLetter userPath) then
    return some (ascii "Absolute paths are not allowed")
  match resolvesWithin weaklyCanonical v userPath with
  | .error what => return some (ascii "Filesystem error: " ++ what)
  | .ok false => return some (ascii "Path escapes base directory")
  | .ok true => return none

end filesystem

end PathValidator

end McpToolkit
