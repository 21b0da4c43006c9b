import McpToolkit.Adapter.Tools
import McpToolkit.Base.Words
/-!
# Arguments for a shell

`escape_shell_argument` writes an argument so that a POSIX shell reads it back.  The
reader here knows the quoting rules for single quotes and for the backslash.  All that a
shell gives another meaning outside of them, such as `"`, `$`, `;` or a line feed, it
keeps as bare octets, so that a text without any is read by a shell as it is read here.
-/

namespace McpToolkit

abbrev apostrophe : UInt8 := 0x27

/-- The quoting of a POSIX shell.  A backslash in front of a line feed joins two lines. -/
def shellQuoting : Quoting UInt8 where
  quote := apostrophe
  escape := backslash
  continued := newline
  blank := fun b => b = space || b = 9
  quote_ne_escape := by decide
  quote_ne_continued := by decide
  blank_quote := rfl
  blank_escape := rfl

/-- The words that a shell finds in a text, if the text ends outside of quotes. -/
def shellWords (text : Bytes) : Option (List (MarkedWord UInt8)) := shellQuoting.read text

namespace InputValidationHandler

/-- The argument in single quotes.  A single quote leaves them, is escaped, and enters
them again. -/
def escapeShellArgument (arg : Bytes) : Bytes :=
  arg.foldl (fun escaped c =>
    if c = apostrophe then escaped ++ ascii "'\\''" else escaped ++ [c]) (ascii "'") ++ ascii "'"

example : escapeShellArgument (ascii "it's") = ascii "'it'\\''s'" := by decide

/-- The loop writes one octet after the other. -/
theorem escapeShellArgument_eq (arg : Bytes) :
    escapeShellArgument arg = shellQuoting.write arg := by
  have hquote : shellQuoting.writeChar apostrophe = ascii "'\\''" := rfl
  have hpass : ∀ (escaped : Bytes) (c : UInt8),
      (if c = apostrophe then escaped ++ ascii "'\\''" else escaped ++ [c]) =
        escaped ++ shellQuoting.writeChar c := by
    intro escaped c
    by_cases hc : c = apostrophe
    · subst hc
      rw [if_pos rfl, hquote]
    · rw [if_neg hc, Quoting.writeChar_of_ne hc]
  rw [escapeShellArgument, funext₂ hpass, List.foldl_append_eq_append]
  rfl

/-- A shell reads an escaped argument as one word, which is the argument, and escaped
arguments with spaces between them as these arguments.  It finds nothing outside of
quotes but single quotes that are escaped. -/
theorem shellWords_escapeShellArgument :
    (∀ arg, ∃ w, shellWords (escapeShellArgument arg) = some [w] ∧ w.text = arg ∧
      ∀ c m, (c, m) ∈ w → m = .quoted ∨ m = .escaped ∧ c = apostrophe) ∧
    ∀ args, ∃ ws,
      shellWords ([space].intercalate (args.map escapeShellArgument)) = some ws ∧
        ws.map MarkedWord.text = args ∧
        ∀ w ∈ ws, ∀ c m, (c, m) ∈ w → m = .quoted ∨ m = .escaped ∧ c = apostrophe := by
  constructor
  · intro arg
    refine ⟨shellQuoting.marked arg, ?_, Quoting.text_marked arg,
      fun c m => Quoting.of_mem_marked⟩
    rw [escapeShellArgument_eq]
    exact Quoting.read_write arg
  · intro args
    refine ⟨args.map shellQuoting.marked, ?_, ?_, ?_⟩
    · rw [funext escapeShellArgument_eq]
      exact Quoting.read_intercalate rfl args
    · rw [List.map_map]
      exact List.map_id'' Quoting.text_marked args
    · intro w hw c m hmem
      obtain ⟨arg, -, rfl⟩ := List.mem_map.mp hw
      exact Quoting.of_mem_marked hmem

end InputValidationHandler

end McpToolkit
