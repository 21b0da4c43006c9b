import Mathlib.Data.List.Sections
import McpToolkit.Base.Find
import McpToolkit.Base.Bytes
/-!
# Letter case

A text in lower case holds a pattern if the text itself holds one of the spellings of
the pattern.
-/

namespace McpToolkit

/-- The text in lower case. -/
def lower (s : Bytes) : Bytes := s.map tolower

/-- The octets that have this one in lower case. -/
def spellings (c : UInt8) : Bytes := [c, c - 0x20].filter fun b => tolower b = c

/-- The texts that have this one in lower case. -/
def spellingsOf (pattern : Bytes) : List Bytes := (pattern.map spellings).sections

theorem mem_spellings {b c : UInt8} : b ∈ spellings c ↔ tolower b = c := by
  rw [spellings, List.mem_filter, decide_eq_true_eq]
  refine and_iff_right_of_imp ?_
  rintro rfl
  rw [tolower]
  split_ifs
  · rw [UInt8.add_sub_cancel]
    exact List.mem_cons_of_mem _ List.mem_cons_self
  · exact List.mem_cons_self

theorem mem_spellingsOf {w pattern : Bytes} : w ∈ spellingsOf pattern ↔ pattern = lower w := by
  rw [spellingsOf, List.mem_sections, lower]
  induction w generalizing pattern with
  | nil => cases pattern <;> simp
  | cons b w ih =>
      cases pattern with
      | nil => simp
      | cons c pattern =>
          rw [List.map_cons, List.forall₂_cons, mem_spellings, ih, List.map_cons,
            List.cons_eq_cons, eq_comm]

theorem prefix_lower {pattern s : Bytes} :
    pattern <+: lower s ↔ ∃ w ∈ spellingsOf pattern, w <+: s := by
  rw [lower, List.prefix_map_iff]
  simp only [mem_spellingsOf, and_comm]
  rfl

theorem infix_lower {pattern s : Bytes} :
    pattern <:+: lower s ↔ ∃ w ∈ spellingsOf pattern, w <:+: s := by
  rw [lower, List.infix_map_iff]
  simp only [mem_spellingsOf, and_comm]
  rfl

end McpToolkit
