import McpToolkit.Adapter.Extract
import McpToolkit.Json.Lexer
/-!
# The search for a key as a function on the unread text

What `extract_string` and `extract_value_span` compute, on the octets from the
pointer on.  Both try every quote of the text as the one in front of the key;
they differ in what they do where the key is not followed by a colon.
-/

namespace McpToolkit

namespace Search

open Scan

/-- The first quote behind which `f` succeeds. -/
def atQuotes {α : Type} (f : Bytes → Option α) : Bytes → Option α
  | [] => none
  | b :: t => if b = quote then (f t).or (atQuotes f t) else atQuotes f t

/-- Behind a quote: the key and a quote. -/
def keyed (key l : Bytes) : Option Bytes :=
  if key ++ [quote] <+: l then some (l.drop (key.length + 1)) else none

/-- Blanks and one octet. -/
def after (b : UInt8) (l : Bytes) : Option Bytes :=
  match l.dropWhile isBlank with
  | [] => none
  | c :: t => if c = b then some t else none

/-- Behind a key: a colon and the opening quote of a string. -/
def opened (l : Bytes) : Option Bytes := (after colon l).bind (after quote)

/-- A string literal, behind its opening quote. -/
def unquoted (l : Bytes) : Option Slice := (string l).map fun r => ⟨l, quote :: r⟩

/-- The content of the string that `extract_string` takes for the value. -/
def stringOf (key l : Bytes) : Option Slice :=
  (atQuotes (fun t => (keyed key t).bind opened) l).bind unquoted

/-- What the container loop leaves: all is gone where the container does not
end.  Brackets of its own kind count, outside strings. -/
def containerRest (opening closing : UInt8) : Mode → Nat → Bytes → Bytes
  | _, _, [] => []
  | .code, depth, b :: t =>
      if b = quote then containerRest opening closing .string depth t
      else if b = opening then containerRest opening closing .code (depth + 1) t
      else if b = closing then
        if depth - 1 = 0 then t else containerRest opening closing .code (depth - 1) t
      else containerRest opening closing .code depth t
  | m, depth, b :: t => containerRest opening closing (m.next b) depth t

/-- What follows a scalar: from a comma or a closing bracket on. -/
def scalarRest (l : Bytes) : Bytes :=
  l.dropWhile fun b => b ≠ comma && b ≠ rbrace && b ≠ rbracket

/-- What is left behind a value, at its first octet. -/
def valueRest : Bytes → Bytes
  | [] => []
  | c :: t =>
      if c = lbrace then containerRest lbrace rbrace .code 0 (c :: t)
      else if c = lbracket then containerRest lbracket rbracket .code 0 (c :: t)
      else if c = quote then (string t).getD []
      else scalarRest (c :: t)

/-- A value behind blanks. -/
def delimited (l : Bytes) : Option Slice :=
  match l.dropWhile isBlank with
  | [] => none
  | c :: t => some ⟨c :: t, valueRest (c :: t)⟩

/-- The value that `extract_value_span` delimits. -/
def valueOf (key l : Bytes) : Option Slice :=
  ((atQuotes (keyed key) l).bind (after colon)).bind delimited

section lemmas

variable {α : Type} {f : Bytes → Option α}

@[simp] theorem atQuotes_nil : atQuotes f [] = none := rfl

@[simp] theorem atQuotes_quote (t : Bytes) :
    atQuotes f (quote :: t) = (f t).or (atQuotes f t) :=
  if_pos rfl

theorem atQuotes_cons {b : UInt8} (hb : b ≠ quote) (t : Bytes) :
    atQuotes f (b :: t) = atQuotes f t :=
  if_neg hb

theorem atQuotes_append {w : Bytes} (hw : quote ∉ w) (t : Bytes) :
    atQuotes f (w ++ t) = atQuotes f t := by
  induction w with
  | nil => rfl
  | cons b w ih =>
      rw [List.mem_cons, not_or] at hw
      rw [List.cons_append, atQuotes_cons (Ne.symm hw.1), ih hw.2]

/-- No quote of a text is in front of something longer than the text. -/
theorem atQuotes_of_short {n : Nat} (hf : ∀ t r, f t = some r → n < t.length) :
    ∀ {l : Bytes}, l.length ≤ n → atQuotes f l = none := by
  intro l
  induction l with
  | nil =>
      intro _
      rfl
  | cons b t ih =>
      intro hlen
      rw [List.length_cons] at hlen
      have ht : f t = none := by
        by_contra hne
        obtain ⟨r, hr⟩ := Option.ne_none_iff_exists'.mp hne
        have := hf t r hr
        omega
      by_cases hb : b = quote
      · rw [hb, atQuotes_quote, ht, Option.none_or, ih (by omega)]
      · rw [atQuotes_cons hb, ih (by omega)]

theorem keyed_append (key r : Bytes) : keyed key (key ++ quote :: r) = some r := by
  have hbegins : key ++ [quote] <+: key ++ quote :: r := ⟨r, by simp⟩
  have hsplit : key ++ quote :: r = (key ++ [quote]) ++ r := by simp
  rw [keyed, if_pos hbegins, hsplit]
  congr 1
  exact List.drop_left' (by simp)

theorem keyed_eq_some {key l r : Bytes} (h : keyed key l = some r) : l = key ++ quote :: r := by
  rw [keyed] at h
  split_ifs at h with hp
  obtain ⟨t, rfl⟩ := hp
  have hdrop : (key ++ [quote] ++ t).drop (key.length + 1) = t := List.drop_left' (by simp)
  rw [hdrop] at h
  cases h
  simp

theorem keyed_length {key l r : Bytes} (h : keyed key l = some r) : key.length < l.length := by
  rw [keyed_eq_some h, List.length_append, List.length_cons]
  omega

theorem containerRest_suffix (o c : UInt8) (m : Mode) (d : Nat) (l : Bytes) :
    containerRest o c m d l <:+ l := by
  fun_induction containerRest o c m d l with
  | case1 => exact List.suffix_refl _
  | case2 d t ih => exact ih.trans (List.suffix_cons _ _)
  | case3 d t hq ih => exact ih.trans (List.suffix_cons _ _)
  | case4 d t hq hc hd => exact List.suffix_cons _ _
  | case5 d t hq hc hd ih => exact ih.trans (List.suffix_cons _ _)
  | case6 d b t hq ho hc ih => exact ih.trans (List.suffix_cons _ _)
  | case7 m d b t hm ih => exact ih.trans (List.suffix_cons _ _)

theorem valueRest_suffix (l : Bytes) : valueRest l <:+ l := by
  cases l with
  | nil => exact List.suffix_refl _
  | cons c t =>
      rw [valueRest]
      split_ifs
      · exact containerRest_suffix _ _ _ _ _
      · exact containerRest_suffix _ _ _ _ _
      · cases hs : string t with
        | none => exact List.nil_suffix
        | some r => exact (string_suffix hs).trans (List.suffix_cons _ _)
      · exact List.dropWhile_suffix _

end lemmas

end Search

end McpToolkit
