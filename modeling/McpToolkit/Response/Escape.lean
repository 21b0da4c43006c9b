import McpToolkit.Json.Complete
import McpToolkit.Json.Reading
import McpToolkit.Response.Sanitizer
/-!
# The two escapers

The table of the sanitizer is in another order than the one of the message builder, and
has the same entries.  What it writes is the content of a string of JSON that stands for
the text.
-/

namespace McpToolkit

namespace ResponseSanitizer

open Scan

theorem escapeControl_eq : ∀ c, escapeControl c = escapeByte c :=
  octets_forall (by decide +kernel)

theorem escapeControlCharacters_eq (s : Bytes) :
    escapeControlCharacters s = s.flatMap escapeByte := by
  rw [escapeControlCharacters]
  congr 1
  funext c
  exact escapeControl_eq c

section escaped

variable {s : Bytes} (h : 0 ∉ s)
include h

theorem escapeControlCharacters_text : escapeControlCharacters s = (escaped s).text := by
  rw [escapeControlCharacters_eq, escaped_text, cString_of_not_mem h]

theorem unescape_escaped : (escaped s).unescape = s := by
  rw [escaped_unescape, cString_of_not_mem h]

/-- The escaped text is read as a string in one way, and that is the text. -/
theorem unescape_of_text {str : Str} (hstr : str.text = escapeControlCharacters s) :
    str.unescape = s := by
  rw [escapeControlCharacters_text h] at hstr
  rw [(Str.text_inj (congrArg (· ++ [quote]) hstr)).1, unescape_escaped h]

/-- The escapers agree.  What they write has no control character, no quote that is not
escaped and no backslash left at its end, and can be read back. -/
theorem escapers_agree :
    (∀ b : JsonBuilder, b.appendEscaped s = b.append (escapeControlCharacters s)) ∧
      Printable (escapeControlCharacters s) ∧ Enclosed (escapeControlCharacters s) ∧
      (∃ str : Str, str.text = escapeControlCharacters s) ∧
      (∀ str : Str, str.text = escapeControlCharacters s → str.unescape = s) ∧
      ∀ t, 0 ∉ t → escapeControlCharacters t = escapeControlCharacters s → t = s := by
  have htext := escapeControlCharacters_text h
  refine ⟨fun b => ?_, ?_, ?_, ⟨escaped s, htext.symm⟩, fun str => unescape_of_text h,
    fun t ht heq => ?_⟩
  · rw [JsonBuilder.appendEscaped, cString_of_not_mem h, escapeControlCharacters_eq]
  · rw [htext]
    exact (escaped s).printable
  · rw [htext]
    exact (escaped s).enclosed
  · rw [escapeControlCharacters_text ht] at heq
    rw [← unescape_of_text h heq, unescape_escaped ht]

end escaped

theorem escapers_agree_of_lines :
    (∀ b : JsonBuilder, b.appendEscaped (ascii "a\n\"b\\") =
        b.append (escapeControlCharacters (ascii "a\n\"b\\"))) ∧
      Printable (escapeControlCharacters (ascii "a\n\"b\\")) ∧
      Enclosed (escapeControlCharacters (ascii "a\n\"b\\")) ∧
      (∃ str : Str, str.text = escapeControlCharacters (ascii "a\n\"b\\")) ∧
      (∀ str : Str, str.text = escapeControlCharacters (ascii "a\n\"b\\") →
        str.unescape = ascii "a\n\"b\\") ∧
      ∀ t, 0 ∉ t → escapeControlCharacters t = escapeControlCharacters (ascii "a\n\"b\\") →
        t = ascii "a\n\"b\\" :=
  escapers_agree (by decide)

end ResponseSanitizer

end McpToolkit
