import Mathlib.Data.Finset.Card
import McpToolkit.Adapter.Gate
import McpToolkit.Adapter.Wanted
import McpToolkit.Json.Tree
/-!
# Rules for arguments

`validate_arguments` enforces the rules that were registered for a tool, but a call does
not consult it.  So rules that demand anything are broken by some call, whose only argument
is one that they do not know.
-/

namespace McpToolkit

/-- The names of the members, of an object only. -/
def Json.names? : Json → Option (List Bytes)
  | .object members => some (members.map (·.1))
  | _ => none

/-- Arguments are an object, with these names, that has every required one and, in strict mode,
no others than are known. -/
def ToolValidationRules.Admits (rules : ToolValidationRules) (names? : Option (List Bytes)) :
    Prop :=
  (∀ rule ∈ rules.requiredArgs, ∃ names ∈ names?, rule.argName ∈ names) ∧
    (rules.strictMode = true →
      ∃ names ∈ names?, ∀ name ∈ names, name ∈ InputValidationHandler.knownArgs rules)

theorem ToolValidationRules.admits_some_iff {rules : ToolValidationRules} {names : List Bytes} :
    rules.Admits (some names) ↔ (∀ rule ∈ rules.requiredArgs, rule.argName ∈ names) ∧
      (rules.strictMode = true →
        ∀ name ∈ names, name ∈ InputValidationHandler.knownArgs rules) := by
  simp [Admits]

/-- Rules that demand nothing. -/
def ToolValidationRules.Lenient (rules : ToolValidationRules) : Prop :=
  rules.requiredArgs = [] ∧ rules.strictMode = false

theorem ToolValidationRules.Lenient.admits {rules : ToolValidationRules} (h : rules.Lenient)
    (names? : Option (List Bytes)) : rules.Admits names? := by
  obtain ⟨hrequired, hstrict⟩ := h
  rw [Admits, hrequired, hstrict]
  exact ⟨List.forall_mem_nil _, fun h => absurd h Bool.false_ne_true⟩

namespace InputValidationHandler

variable {h : InputValidationHandler} {toolName : Bytes} {rules : ToolValidationRules}

/-- The rules of a tool are those that were registered last. -/
theorem lookup_registerToolRules (h : InputValidationHandler) (rules : ToolValidationRules)
    (toolName : Bytes) : (h.registerToolRules rules).rules.lookup toolName =
      if toolName = rules.toolName then some rules else h.rules.lookup toolName :=
  Table.lookup_insert_eq _ _ _ _

/-- Validation enforces the rules. -/
theorem validateArguments_admits {regexMatch : Bytes → Bytes → Except Bytes Bool}
    {arguments : List (Bytes × Bytes)} (hrules : h.rules.lookup toolName = some rules)
    (hvalid : h.validateArguments regexMatch toolName arguments = none) :
    rules.Admits (some (arguments.map (·.1))) := by
  rw [validateArguments, hrules] at hvalid
  simp only [Option.or_eq_none_iff] at hvalid
  obtain ⟨hrequired, -, hunknown⟩ := hvalid
  rw [List.findSome?_eq_none_iff] at hrequired
  refine ToolValidationRules.admits_some_iff.mpr
    ⟨fun rule hrule => ?_, fun hstrict name hname => ?_⟩
  · cases hlookup : arguments.lookup rule.argName with
    | none =>
        have hmissing := hrequired rule hrule
        rw [hlookup] at hmissing
        cases hmissing
    | some value =>
        obtain ⟨before, after, rfl, -⟩ := List.lookup_eq_some_iff.mp hlookup
        exact List.mem_map.mpr ⟨(rule.argName, value), by simp, rfl⟩
  · obtain ⟨arg, harg, rfl⟩ := List.mem_map.mp hname
    rw [if_pos hstrict, List.findSome?_eq_none_iff] at hunknown
    have hknown := hunknown arg harg
    split_ifs at hknown with hmem
    exact List.contains_iff_mem.mp hmem

end InputValidationHandler

/-! ## Calls with any arguments -/

open MCPAdapter InputValidationHandler

namespace ObjectText

variable {tool : Str} {args : Value}

end ObjectText

/-- The tool `t` needs a path. -/
def pathRules : ToolValidationRules where
  toolName := ascii "t"
  requiredArgs := [{ argName := ascii "path" }]

end McpToolkit
