import McpToolkit.Base.Case
import McpToolkit.Base.Memory
/-!
# Responses

`ResponseSanitizer` as the sources have it: a response is cut at the size limit, checked
for injection patterns, and then rewritten by two passes, one that hides paths and one
that escapes for JSON.
-/

namespace McpToolkit

structure SanitizeConfig where
  /-- 1 MB. -/
  maxResponseSize : Nat := 1024 * 1024
  truncateOnSizeExceeded : Bool := true
  redactPaths : Bool := true
  escapeControlChars : Bool := true
  deriving Repr, DecidableEq

namespace ResponseSanitizer

/-! ## Injection patterns -/

def injectionPatterns : List Bytes :=
  ["ignore previous", "forget about", "disregard", "override", "bypass", "instead do this",
    "now you are", "you are now"].map ascii

def containsInjectionPatterns (response : Bytes) : Bool :=
  injectionPatterns.any fun pattern => pattern <:+: lower response

/-! ## Paths -/

/-- What a path is replaced by. -/
def pathMarker : Bytes := ascii "/[PATH]"

/-- The value that an `int` gets from a count. -/
def toInt (count : Nat) : Int := (count : Int).bmod (2 ^ 32)

/-- At the start of the text, or behind white space. -/
def atStart (result : Bytes) (pos : Nat) : Except Fault Bool := do
  if pos = 0 then return true
  return isspace (← byteAt result (pos - 1))

/-- One pass of the loop over the slashes of `result`, from `pos` on. -/
def redactPass : Bytes × Nat → Except Fault (Pass (Bytes × Nat) Bytes)
  | (result, pos) => do
    match find result [slash] pos with
    | none => return .done result
    | some pos =>
        let stop := (find result [space] pos).getD result.length
        if ← atStart result pos then
          let path := (result.drop pos).take (stop - pos)
          let slashCount := toInt (path.count slash)
          if slashCount ≥ 2 then
            return .next (result.take pos ++ pathMarker ++ result.drop stop, pos + 7)
        return .next (result, pos + 1)

def redactPaths (text : Bytes) : Except Fault Bytes :=
  loop redactPass .passes (text.length + 1) (text, 0)

/-! ## Control characters -/

/-- What is appended for one octet. -/
def escapeControl (c : UInt8) : Bytes :=
  if c = newline then [backslash, 0x6E]
  else if c = 13 then [backslash, 0x72]
  else if c = 9 then [backslash, 0x74]
  else if c = 8 then [backslash, 0x62]
  else if c = 12 then [backslash, 0x66]
  else if c = quote then [backslash, quote]
  else if c = backslash then [backslash, backslash]
  else if c < 0x20 then [backslash, 0x75, 0x30, 0x30, hexDigit (c / 16), hexDigit (c % 16)]
  else [c]

def escapeControlCharacters (text : Bytes) : Bytes := text.flatMap escapeControl

/-- The octet is not written as it is. -/
def Escaped (c : UInt8) : Prop := escapeControl c ≠ [c]

instance (c : UInt8) : Decidable (Escaped c) := inferInstanceAs (Decidable (_ ≠ _))

theorem escaped_cases {c : UInt8} (h : Escaped c) : c < 0x20 ∨ c = quote ∨ c = backslash := by
  by_contra hnot
  rw [not_or, not_or] at hnot
  have hne : ∀ b < (0x20 : UInt8), c ≠ b := by
    rintro b hb rfl
    exact hnot.1 hb
  apply h
  rw [escapeControl, if_neg (hne newline (by decide)), if_neg (hne 13 (by decide)),
    if_neg (hne 9 (by decide)), if_neg (hne 8 (by decide)), if_neg (hne 12 (by decide)),
    if_neg hnot.2.1, if_neg hnot.2.2, if_neg hnot.1]

theorem escaped_of_lt {c : UInt8} (h : c < 0x20) : Escaped c := by
  have hcontrol : ∀ n < 32, Escaped n.toUInt8 := by decide
  have hc := hcontrol c.toNat (UInt8.lt_iff_toNat_lt.mp h)
  rwa [Nat.toUInt8, UInt8.ofNat_toNat] at hc

/-- What holds of the control characters, the quote and the backslash holds of all octets
that are escaped. -/
theorem escaped_induction {P : UInt8 → Prop} (hcontrol : ∀ n < 32, P n.toUInt8)
    (hquote : P quote) (hbackslash : P backslash) : ∀ c, Escaped c → P c := by
  intro c h
  rcases escaped_cases h with hlow | rfl | rfl
  · have hc := hcontrol c.toNat (UInt8.lt_iff_toNat_lt.mp hlow)
    rwa [Nat.toUInt8, UInt8.ofNat_toNat] at hc
  · exact hquote
  · exact hbackslash

/-! ## The pipeline -/

def truncationMarker : Bytes := ascii "\n[OUTPUT TRUNCATED]"

/-- The response within the size limit, `none` if it is to be refused. -/
def limited (response : Bytes) (config : SanitizeConfig) : Option Bytes :=
  if response.length > config.maxResponseSize then
    if config.truncateOnSizeExceeded then
      some (response.take config.maxResponseSize ++ truncationMarker)
    else none
  else some response

/-- The text that is returned, and `error_msg` where it is set. -/
def sanitize (response : Bytes) (config : SanitizeConfig) :
    Except Fault (Bytes × Option Bytes) := do
  match limited response config with
  | none => return ([], some (ascii "Tool response exceeds maximum size"))
  | some result =>
      if containsInjectionPatterns result then
        return ([], some (ascii "Tool response contains suspicious patterns"))
      let result ← if config.redactPaths then redactPaths result else pure result
      let result := if config.escapeControlChars then escapeControlCharacters result else result
      return (result, none)

end ResponseSanitizer

end McpToolkit
