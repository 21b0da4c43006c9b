import Mathlib.Data.List.Basic
/-!
# Words of a quoted text

A text of characters is read as a list of words.  Blanks separate words.  Between two
quotes every character stands for itself, and outside of them so does the character
behind an escape, except one that vanishes there.  A word remembers how each of its
characters was kept.  A character that was not kept, which a reader of the words may
give a meaning of its own, is `bare`: an operator, an expansion, another kind of quote.

Nothing here depends on which characters these are.
-/

namespace McpToolkit

/-- The characters with a meaning to the reader. -/
structure Quoting (α : Type) where
  quote : α
  escape : α
  /-- Vanishes behind an escape. -/
  continued : α
  blank : α → Bool
  quote_ne_escape : quote ≠ escape
  quote_ne_continued : quote ≠ continued
  blank_quote : blank quote = false
  blank_escape : blank escape = false

/-- How a character of a word stands in the text. -/
inductive Mark where
  | bare
  | quoted
  | escaped
  deriving Repr, DecidableEq

/-- The characters of a word, with their marks. -/
abbrev MarkedWord (α : Type) := List (α × Mark)

/-- What the word says. -/
def MarkedWord.text {α : Type} (w : MarkedWord α) : List α := w.map (·.1)

namespace Quoting

/-- What the next character is read as. -/
inductive Mode where
  | plain
  | quoted
  | escaped
  deriving Repr, DecidableEq

/-- What has been read. -/
structure Reader (α : Type) where
  mode : Mode := .plain
  words : List (MarkedWord α) := []
  /-- The word that has not ended yet, if one has begun. -/
  word : Option (MarkedWord α) := none

namespace Reader

variable {α : Type}

def add (r : Reader α) (c : α) (mark : Mark) : Reader α :=
  { r with word := some (r.word.getD [] ++ [(c, mark)]) }

/-- The words after the last one has ended. -/
def close (r : Reader α) : List (MarkedWord α) := r.words ++ r.word.toList

end Reader

variable {α : Type} [DecidableEq α] (q : Quoting α)

def step (r : Reader α) (c : α) : Reader α :=
  match r.mode with
  | .plain =>
      if c = q.quote then { r with mode := .quoted, word := some (r.word.getD []) }
      else if c = q.escape then { r with mode := .escaped }
      else if q.blank c then { r with words := r.close, word := none }
      else r.add c .bare
  | .quoted =>
      if c = q.quote then { r with mode := .plain } else r.add c .quoted
  | .escaped =>
      if c = q.continued then { r with mode := .plain }
      else { r.add c .escaped with mode := .plain }

/-- The words of a text, unless it ends between quotes or with an escape. -/
def read (text : List α) : Option (List (MarkedWord α)) :=
  let r := text.foldl q.step {}
  if r.mode = .plain then some r.close else none

/-! ## Writing a word -/

/-- A character in the middle of a quoted text.  A quote ends it, is escaped and begins
the next one. -/
def writeChar (c : α) : List α :=
  if c = q.quote then [q.quote, q.escape, q.quote, q.quote] else [c]

/-- A text that is read as one word. -/
def write (a : List α) : List α := q.quote :: a.flatMap q.writeChar ++ [q.quote]

/-- How a character is read where it was written. -/
def mark (c : α) : Mark := if c = q.quote then .escaped else .quoted

/-- The word that is written for a text. -/
def marked (a : List α) : MarkedWord α := a.map fun c => (c, q.mark c)

variable {q}

theorem writeChar_quote : q.writeChar q.quote = [q.quote, q.escape, q.quote, q.quote] :=
  if_pos rfl

theorem writeChar_of_ne {c : α} (h : c ≠ q.quote) : q.writeChar c = [c] := if_neg h

@[simp] theorem text_marked (a : List α) : (q.marked a).text = a := by
  simp [marked, MarkedWord.text, Function.comp_def]

/-- Nothing that is written is left bare, and only quotes stand outside of quotes. -/
theorem of_mem_marked {a : List α} {c : α} {m : Mark} (h : (c, m) ∈ q.marked a) :
    m = .quoted ∨ m = .escaped ∧ c = q.quote := by
  obtain ⟨d, -, heq⟩ := List.mem_map.mp h
  cases heq
  unfold mark
  split_ifs with hd
  · exact .inr ⟨rfl, hd⟩
  · exact .inl rfl

/-! ## Reading what was written -/

section written

variable (words : List (MarkedWord α)) (w : MarkedWord α)

theorem step_quote_plain (word : Option (MarkedWord α)) :
    q.step ⟨.plain, words, word⟩ q.quote = ⟨.quoted, words, some (word.getD [])⟩ := by
  simp [step]

theorem step_quote_quoted (word : Option (MarkedWord α)) :
    q.step ⟨.quoted, words, word⟩ q.quote = ⟨.plain, words, word⟩ := by
  simp [step]

theorem step_escape (word : Option (MarkedWord α)) :
    q.step ⟨.plain, words, word⟩ q.escape = ⟨.escaped, words, word⟩ := by
  simp [step, q.quote_ne_escape.symm]

theorem step_quote_escaped :
    q.step ⟨.escaped, words, some w⟩ q.quote =
      ⟨.plain, words, some (w ++ [(q.quote, .escaped)])⟩ := by
  simp [step, q.quote_ne_continued, Reader.add]

theorem step_blank {c : α} (hc : q.blank c = true) :
    q.step ⟨.plain, words, some w⟩ c = ⟨.plain, words ++ [w], none⟩ := by
  have hquote : c ≠ q.quote := by
    rintro rfl
    rw [q.blank_quote] at hc
    cases hc
  have hescape : c ≠ q.escape := by
    rintro rfl
    rw [q.blank_escape] at hc
    cases hc
  simp [step, hquote, hescape, hc, Reader.close]

/-- A character is read as it was written, and the reader is between quotes again. -/
theorem foldl_writeChar (c : α) :
    (q.writeChar c).foldl q.step ⟨.quoted, words, some w⟩ =
      ⟨.quoted, words, some (w ++ [(c, q.mark c)])⟩ := by
  by_cases hc : c = q.quote
  · subst hc
    rw [writeChar_quote, mark, if_pos rfl]
    simp only [List.foldl_cons, List.foldl_nil]
    rw [step_quote_quoted, step_escape, step_quote_escaped, step_quote_plain]
    rfl
  · rw [writeChar_of_ne hc, mark, if_neg hc]
    simp [step, hc, Reader.add]

theorem foldl_flatMap_writeChar (a : List α) :
    (a.flatMap q.writeChar).foldl q.step ⟨.quoted, words, some w⟩ =
      ⟨.quoted, words, some (w ++ q.marked a)⟩ := by
  induction a generalizing w with
  | nil => simp [marked]
  | cons c a ih =>
      rw [List.flatMap_cons, List.foldl_append, foldl_writeChar, ih]
      simp [marked]

/-- What was written for a text is read as one word, whatever is read behind it. -/
theorem foldl_write (a : List α) :
    (q.write a).foldl q.step ⟨.plain, words, none⟩ = ⟨.plain, words, some (q.marked a)⟩ := by
  rw [write, List.cons_append, List.foldl_cons, step_quote_plain, List.foldl_append,
    Option.getD_none, foldl_flatMap_writeChar, List.nil_append, List.foldl_cons,
    List.foldl_nil, step_quote_quoted]

end written

/-- Reading undoes writing. -/
theorem read_write (a : List α) : q.read (q.write a) = some [q.marked a] := by
  rw [read, foldl_write]
  rfl

theorem foldl_intercalate {sep : α} (hsep : q.blank sep = true) (a : List α)
    (texts : List (List α)) (words : List (MarkedWord α)) :
    ∃ r, ([sep].intercalate ((a :: texts).map q.write)).foldl q.step ⟨.plain, words, none⟩ = r ∧
      r.mode = .plain ∧ r.close = words ++ (a :: texts).map q.marked := by
  induction texts generalizing a words with
  | nil =>
      refine ⟨⟨.plain, words, some (q.marked a)⟩, ?_, rfl, rfl⟩
      simp [List.intercalate, foldl_write]
  | cons b texts ih =>
      have hcut : [sep].intercalate ((a :: b :: texts).map q.write) =
          q.write a ++ sep :: [sep].intercalate ((b :: texts).map q.write) := by
        simp [List.intercalate]
      obtain ⟨r, hr, hmode, hclose⟩ := ih b (words ++ [q.marked a])
      refine ⟨r, ?_, hmode, ?_⟩
      · rw [hcut, List.foldl_append, foldl_write, List.foldl_cons, step_blank _ _ hsep, hr]
      · rw [hclose, List.append_assoc]
        rfl

/-- The written texts with a blank between them are read as these texts. -/
theorem read_intercalate {sep : α} (hsep : q.blank sep = true) (texts : List (List α)) :
    q.read ([sep].intercalate (texts.map q.write)) = some (texts.map q.marked) := by
  cases texts with
  | nil => rfl
  | cons a texts =>
      obtain ⟨r, hr, hmode, hclose⟩ := foldl_intercalate hsep a texts []
      rw [read, hr, if_pos hmode, hclose, List.nil_append]

end Quoting

end McpToolkit
