import McpToolkit.Response.Hidden
import Mathlib.Algebra.GroupWithZero.Nat
/-!
# The size of what is returned

The limit is applied before the two passes.  An escape is longer than its octet by one
or by five, and a hidden path becomes a marker of seven octets.
-/

namespace McpToolkit

namespace ResponseSanitizer

/-- By how much the escape of an octet is longer than the octet. -/
def escapeGain (b : UInt8) : Nat :=
  if b ∈ [newline, 13, 9, 8, 12, quote, backslash] then 1
  else if b < 0x20 then 5
  else 0

/-- By how much the text grows at the octet `b`, which stands between `before` and `rest`. -/
def gain (config : SanitizeConfig) (before : Bytes) (b : UInt8) (rest : Bytes) : Int :=
  if config.redactPaths = true ∧ Hidden (before ++ [b]) rest then
    -- A path is lost octet by octet, and its first octet brings the marker.
    if Hidden before (b :: rest) then -1 else 6
  else if config.escapeControlChars then escapeGain b
  else 0

/-- By how much the text grows, behind `before`. -/
def growth (config : SanitizeConfig) : Bytes → Bytes → Int
  | _, [] => 0
  | before, b :: rest => gain config before b rest + growth config (before ++ [b]) rest

theorem length_escapeControl (b : UInt8) : (escapeControl b).length = 1 + escapeGain b := by
  by_cases hb : Escaped b
  · revert b
    exact escaped_induction (by decide) (by decide) (by decide)
  · have hshort : b ∉ [newline, 13, 9, 8, 12, quote, backslash] := by
      simp only [List.mem_cons, List.not_mem_nil, or_false]
      rintro (rfl | rfl | rfl | rfl | rfl | rfl | rfl) <;> exact hb (by decide)
    have hgain : escapeGain b = 0 := by
      rw [escapeGain, if_neg hshort, if_neg fun hlt => hb (escaped_of_lt hlt)]
    rw [Escaped, ne_eq, not_not] at hb
    rw [hb, hgain]
    rfl

/-- How many octets are written for one that is not hidden. -/
def cost (config : SanitizeConfig) (b : UInt8) : Nat :=
  if config.escapeControlChars then 1 + escapeGain b else 1

theorem length_rewritten (config : SanitizeConfig) (text : Bytes) :
    (rewritten config text).length = ((visible config text).map (cost config)).sum := by
  rw [rewritten]
  cases hescape : config.escapeControlChars with
  | false =>
      have hcost : cost config = fun _ => 1 := by
        funext b
        rw [cost, hescape]
        rfl
      rw [hcost, List.map_const', List.sum_replicate_nat, Nat.mul_one]
      rfl
  | true =>
      have hcost : cost config = fun b => (escapeControl b).length := by
        funext b
        rw [cost, hescape, length_escapeControl]
        rfl
      rw [hcost, ← List.length_flatMap]
      rfl

theorem cost_pathMarker (config : SanitizeConfig) :
    (pathMarker.map (cost config)).sum = 7 := by
  unfold cost
  cases config.escapeControlChars <;> decide

/-- With the paths hidden, the text has grown by its growth. -/
theorem cost_redacted {config : SanitizeConfig} (h : config.redactPaths = true)
    (before rest : Bytes) :
    (((redacted before rest).map (cost config)).sum : Int) =
      rest.length + growth config before rest := by
  induction rest generalizing before with
  | nil =>
      rw [redacted_nil]
      rfl
  | cons b t ih =>
      have hih := ih (before ++ [b])
      rw [growth, gain, h, List.length_cons]
      rcases redacted_cons before b t with ⟨hshown, heq⟩ | ⟨hhidden, hbefore, heq⟩ |
        ⟨hhidden, hbefore, rfl, heq⟩
      · rw [heq, if_neg fun h => hshown h.2, List.map_cons, List.sum_cons, cost]
        split_ifs <;> omega
      · rw [heq, if_pos ⟨rfl, hhidden⟩, if_pos hbefore]
        omega
      · rw [heq, if_pos ⟨rfl, hhidden⟩, if_neg hbefore, List.map_append, List.sum_append,
          cost_pathMarker]
        omega

theorem cost_kept {config : SanitizeConfig} (h : config.redactPaths = false)
    (before rest : Bytes) :
    ((rest.map (cost config)).sum : Int) = rest.length + growth config before rest := by
  induction rest generalizing before with
  | nil => rfl
  | cons b t ih =>
      have hih := ih (before ++ [b])
      rw [growth, gain, h, if_neg (by simp), List.length_cons, List.map_cons, List.sum_cons, cost]
      split_ifs <;> omega

theorem length_rewritten_eq (config : SanitizeConfig) (text : Bytes) :
    ((rewritten config text).length : Int) = text.length + growth config [] text := by
  rw [length_rewritten, visible]
  cases hpaths : config.redactPaths with
  | false => exact cost_kept hpaths [] text
  | true =>
      rw [if_pos rfl, ← redacted_start]
      exact cost_redacted hpaths [] text

/-- What is returned keeps to the limit exactly if the text that passed the limit and the
check does not grow past it. -/
theorem sanitize_length_iff (response : Bytes) (config : SanitizeConfig) :
    ∃ result error, sanitize response config = .ok (result, error) ∧
      (result.length ≤ config.maxResponseSize + truncationMarker.length ↔
        ∀ text, limited response config = some text → containsInjectionPatterns text = true ∨
          text.length + growth config [] text ≤
            config.maxResponseSize + truncationMarker.length) := by
  refine sanitize_iff (P := fun result _ =>
    result.length ≤ config.maxResponseSize + truncationMarker.length) response config
    (fun _ => Nat.zero_le _) fun text _ => ?_
  have hlength := length_rewritten_eq config text
  constructor <;> intro h <;> omega

/-- Four quotes pass the limit of four, and become eight octets. -/
theorem sanitize_exceeds :
    ∃ result, sanitize (List.replicate 5 quote) { maxResponseSize := 4 } = .ok (result, none) ∧
      4 + truncationMarker.length < result.length := by
  refine ⟨List.flatten (List.replicate 4 [backslash, quote]) ++ ascii "\\n[OUTPUT TRUNCATED]",
    ?_, by decide⟩
  rfl

end ResponseSanitizer

end McpToolkit
