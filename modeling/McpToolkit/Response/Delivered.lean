import McpToolkit.Adapter.Results
import McpToolkit.Execution.Guard
import McpToolkit.Response.Escape
import McpToolkit.Response.Redact
/-!
# From a tool to a client

A response passes the sanitizer, the check of the output and the reply of the adapter, and
two of these three escape for JSON.  A client that reads the reply has the text as the
sanitizer left it, and has to read it as a string of JSON once more.
-/

namespace McpToolkit

open MCPAdapter ResponseSanitizer

namespace ResponseSanitizer

/-! ## What is escaped -/

theorem escapeControl_of_not_escaped {c : UInt8} (h : ¬ Escaped c) : escapeControl c = [c] :=
  not_not.mp h

theorem escapeControl_printable (c : UInt8) : Printable (escapeControl c) := by
  have hall : ∀ c, Escaped c → (escapeControl c).all (0x20 ≤ ·) = true :=
    escaped_induction (by decide +kernel) (by decide) (by decide)
  by_cases hc : Escaped c
  · exact fun b hb => of_decide_eq_true (List.all_eq_true.mp (hall c hc) b hb)
  · have hlow : 0x20 ≤ c := UInt8.not_lt.mp fun hlt => hc (escaped_of_lt hlt)
    rw [escapeControl_of_not_escaped hc]
    exact .cons hlow .nil

theorem escapeControlCharacters_printable (s : Bytes) : Printable (escapeControlCharacters s) := by
  intro b hb
  obtain ⟨c, -, hc⟩ := List.mem_flatMap.mp hb
  exact escapeControl_printable c b hc

theorem escapeControl_grows : ∀ c, Escaped c → 2 ≤ (escapeControl c).length :=
  escaped_induction (by decide) (by decide) (by decide)

theorem length_le_escapeControlCharacters (s : Bytes) :
    s.length ≤ (escapeControlCharacters s).length := by
  induction s with
  | nil => exact Nat.le_refl 0
  | cons c s ih =>
      have hc : 1 ≤ (escapeControl c).length := by
        by_cases hescaped : Escaped c
        · exact Nat.le_of_succ_le (escapeControl_grows c hescaped)
        · rw [escapeControl_of_not_escaped hescaped]
          exact Nat.le_refl 1
      rw [escapeControlCharacters, List.flatMap_cons, List.length_append, List.length_cons,
        ← escapeControlCharacters]
      omega

/-- A text that has something to escape becomes longer. -/
theorem escapeControlCharacters_eq_self_iff (s : Bytes) :
    escapeControlCharacters s = s ↔ ∀ c ∈ s, ¬ Escaped c := by
  induction s with
  | nil => exact iff_of_true rfl (List.forall_mem_nil _)
  | cons c s ih =>
      rw [escapeControlCharacters, List.flatMap_cons, ← escapeControlCharacters,
        List.forall_mem_cons, ← ih]
      constructor
      · intro heq
        have hc : ¬ Escaped c := by
          intro hescaped
          have hgrows := escapeControl_grows c hescaped
          have hrest := length_le_escapeControlCharacters s
          have hlength := congrArg List.length heq
          rw [List.length_append, List.length_cons] at hlength
          omega
        rw [escapeControl_of_not_escaped hc] at heq
        exact ⟨hc, (List.cons.inj heq).2⟩
      · rintro ⟨hc, heq⟩
        rw [escapeControl_of_not_escaped hc, heq, List.singleton_append]

end ResponseSanitizer

/-! ## What is accepted -/

namespace ToolExecutionGuard

theorem isForbidden_lt {c : UInt8} (h : isForbidden c = true) : c < 0x20 := by
  rw [isForbidden, Bool.and_assoc, Bool.and_assoc, Bool.and_eq_true] at h
  exact of_decide_eq_true h.1

theorem validateOutput_eq_none_iff {output : Bytes} {maxSize : Nat} :
    validateOutput output maxSize = none ↔
      output.length ≤ maxSize ∧ ∀ c ∈ output, ¬ isForbidden c = true := by
  rw [validateOutput, ← Nat.not_lt, ← List.any_eq_false]
  by_cases hlong : output.length > maxSize
  · rw [if_pos hlong]
    exact iff_of_false (Option.some_ne_none _) fun h => h.1 hlong
  · rw [if_neg hlong, and_iff_right hlong]
    cases output.any isForbidden with
    | true => exact iff_of_false (Option.some_ne_none _) Bool.true_eq_false.mp
    | false => exact iff_of_true rfl rfl

end ToolExecutionGuard

/-! ## What is delivered -/

/-- A response that the sanitizer returns is the visible text of what is within the limit,
escaped.  The check of the output refuses it for its size only.  The adapter's reply gives
a client this text octet for octet; it is the visible text itself exactly if nothing was to
be escaped, and otherwise it has to be read as a string once more, which gives the visible
text. -/
theorem sanitized_delivered {response text : Bytes} {config : SanitizeConfig}
    (hescape : config.escapeControlChars = true)
    (h : sanitize response config = .ok (text, none)) :
    ∃ within, limited response config = some within ∧
      text = escapeControlCharacters (visible config within) ∧
      (∀ maxSize, ToolExecutionGuard.validateOutput text maxSize = none ↔
        text.length ≤ maxSize) ∧
      (∀ id isError, ∃ j, Decodes (resultLine id ⟨text, isError⟩) j ∧
        j.Returns ⟨text, isError⟩) ∧
      (text = visible config within ↔ ∀ c ∈ visible config within, ¬ Escaped c) ∧
      (0 ∉ visible config within → (∃ str : Str, str.text = text) ∧
        ∀ str : Str, str.text = text → str.unescape = visible config within) := by
  rcases sanitize_cases response config with
    ⟨-, hsanitize⟩ | ⟨within, hlimited, ⟨-, hsanitize⟩ | ⟨-, hsanitize⟩⟩
  · rw [hsanitize] at h
    cases h
  · rw [hsanitize] at h
    cases h
  rw [hsanitize, rewritten, if_pos hescape] at h
  cases h
  have hprintable := escapeControlCharacters_printable (visible config within)
  refine ⟨within, hlimited, rfl, fun maxSize => ?_, fun id isError => ?_, ?_, fun hzero => ?_⟩
  · rw [ToolExecutionGuard.validateOutput_eq_none_iff]
    refine and_iff_left fun c hc hforbidden => ?_
    exact UInt8.not_lt.mpr (hprintable c hc) (ToolExecutionGuard.isForbidden_lt hforbidden)
  · rw [resultLine_returns_iff]
    exact fun hmem => absurd (hprintable 0 hmem) (by decide)
  · exact escapeControlCharacters_eq_self_iff _
  · have htext := escapeControlCharacters_text hzero
    exact ⟨⟨escaped (visible config within), htext.symm⟩, fun str => unescape_of_text hzero⟩

theorem sanitized_delivered_of_tab :
    ascii "a\\tb" = escapeControlCharacters (ascii "a\tb") ∧
    (∃ j, Decodes (resultLine (some 1) ⟨ascii "a\\tb", false⟩) j ∧
      j.Returns ⟨ascii "a\\tb", false⟩) ∧
    ∃ str : Str, str.text = ascii "a\\tb" ∧ str.unescape = ascii "a\tb" := by
  have hsanitize : sanitize (ascii "a\tb") {} = .ok (ascii "a\\tb", none) := by decide +kernel
  have hlimited : limited (ascii "a\tb") {} = some (ascii "a\tb") := by decide
  have hvisible : visible {} (ascii "a\tb") = ascii "a\tb" := by decide +kernel
  obtain ⟨within, hwithin, htext, -, hdelivered, -, hread⟩ := sanitized_delivered rfl hsanitize
  rw [hlimited] at hwithin
  cases hwithin
  rw [hvisible] at htext hread
  obtain ⟨⟨str, hstr⟩, hunescape⟩ := hread (by decide)
  exact ⟨htext, hdelivered (some 1) false, str, hstr, hunescape str hstr⟩

end McpToolkit
