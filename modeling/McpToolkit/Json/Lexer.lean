import McpToolkit.Json.Scan
import Mathlib.Data.List.TakeWhile
/-!
# Tokens

The content of a string literal, read octet by octet with the three modes of a
lexer, and the string scanner in those terms.  The other tokens are known by the
octets that they are made of.
-/

namespace McpToolkit

/-- The octets of numbers. -/
def isNumberChar (b : UInt8) : Bool :=
  isdigit b || b = minus || b = plus || b = point || b = lowerE || b = upperE

namespace Scan

/-- The mode after a stretch of text. -/
def Mode.run (mode : Mode) (l : Bytes) : Mode := l.foldl Mode.next mode

@[simp] theorem Mode.run_cons (mode : Mode) (b : UInt8) (t : Bytes) :
    mode.run (b :: t) = (mode.next b).run t := rfl

theorem Mode.run_append (mode : Mode) (s t : Bytes) :
    mode.run (s ++ t) = (mode.run s).run t :=
  List.foldl_append

theorem Mode.next_string {b : UInt8} (hq : b ≠ quote) (hb : b ≠ backslash) :
    Mode.string.next b = .string := by
  rw [Mode.next, if_neg hq, if_neg hb]

/-- Inside a string literal every quote of the text stands after an escaping
backslash. -/
def QuotesEscaped (text : Bytes) : Prop :=
  ∀ p q, text = p ++ quote :: q → Mode.string.run p = .escape

/-- The text between the quotes of a string literal. -/
structure Enclosed (text : Bytes) : Prop where
  quotes : QuotesEscaped text
  /-- The text does not escape what follows it. -/
  ends : Mode.string.run text = .string

theorem Enclosed.nil : Enclosed [] := by
  refine ⟨fun p q h => ?_, rfl⟩
  have hlen := congrArg List.length h
  simp at hlen

theorem Enclosed.escape {e : UInt8} {t : Bytes} (h : Enclosed t) :
    Enclosed (backslash :: e :: t) := by
  refine ⟨fun p q hp => ?_, h.ends⟩
  match p with
  | [] => exact absurd (List.head_eq_of_cons_eq hp) (by decide)
  | [c] => rw [← List.head_eq_of_cons_eq hp]; rfl
  | c :: d :: p =>
      simp only [List.cons_append, List.cons.injEq] at hp
      obtain ⟨rfl, rfl, hp⟩ := hp
      exact h.quotes p q hp

theorem Enclosed.cons {b : UInt8} {t : Bytes} (hq : b ≠ quote) (hb : b ≠ backslash)
    (h : Enclosed t) : Enclosed (b :: t) := by
  refine ⟨fun p q hp => ?_, ?_⟩
  · match p with
    | [] => exact absurd (List.head_eq_of_cons_eq hp) hq
    | c :: p =>
        simp only [List.cons_append, List.cons.injEq] at hp
        obtain ⟨rfl, hp⟩ := hp
        rw [Mode.run_cons, Mode.next_string hq hb]
        exact h.quotes p q hp
  · rw [Mode.run_cons, Mode.next_string hq hb]
    exact h.ends

/-- The string scanner leaves with the text up to the first unescaped quote. -/
theorem string_split {l r : Bytes} (h : string l = some r) :
    ∃ text, l = text ++ quote :: r ∧ Enclosed text := by
  induction l using string.induct with
  | case1 => cases h
  | case2 t =>
      rw [string_quote] at h
      cases h
      exact ⟨[], rfl, .nil⟩
  | case3 => cases h
  | case4 e t hq ih =>
      rw [string_escape] at h
      obtain ⟨text, rfl, henc⟩ := ih h
      exact ⟨backslash :: e :: text, rfl, henc.escape⟩
  | case5 b t hq hb ih =>
      rw [string_cons hq hb] at h
      obtain ⟨text, rfl, henc⟩ := ih h
      exact ⟨b :: text, rfl, henc.cons hq hb⟩

theorem QuotesEscaped.head_ne {b : UInt8} {t : Bytes} (h : QuotesEscaped (b :: t)) :
    b ≠ quote := by
  rintro rfl
  cases h [] t rfl

theorem Enclosed.of_escape {e : UInt8} {t : Bytes} (h : Enclosed (backslash :: e :: t)) :
    Enclosed t := by
  refine ⟨fun p q hp => ?_, h.ends⟩
  have := h.quotes (backslash :: e :: p) q (by rw [hp]; rfl)
  exact this

theorem Enclosed.of_cons {b : UInt8} {t : Bytes} (hq : b ≠ quote) (hb : b ≠ backslash)
    (h : Enclosed (b :: t)) : Enclosed t := by
  have hnext := Mode.next_string hq hb
  refine ⟨fun p q hp => ?_, ?_⟩
  · have := h.quotes (b :: p) q (by rw [hp]; rfl)
    rwa [Mode.run_cons, hnext] at this
  · have := h.ends
    rwa [Mode.run_cons, hnext] at this

theorem string_enclosed {text : Bytes} (h : Enclosed text) (r : Bytes) :
    string (text ++ quote :: r) = some r := by
  induction text using string.induct with
  | case1 => exact string_quote r
  | case2 t => exact absurd rfl h.quotes.head_ne
  | case3 => cases h.ends
  | case4 e t hq ih =>
      rw [List.cons_append, List.cons_append, string_escape, ih h.of_escape]
  | case5 b t hq hb ih =>
      rw [List.cons_append, string_cons hq hb, ih (h.of_cons hq hb)]

/-- A container ends with its closing bracket. -/
theorem container_split {o c : UInt8} {m : Mode} {d : Nat} {l r : Bytes}
    (h : container o c m d l = some r) : ∃ w, l = w ++ c :: r := by
  have hcons : ∀ {b : UInt8} {t : Bytes}, (∃ w, t = w ++ c :: r) → ∃ w, b :: t = w ++ c :: r :=
    fun {b t} ⟨w, hw⟩ => ⟨b :: w, by rw [hw, List.cons_append]⟩
  fun_induction container o c m d l with
  | case1 => cases h
  | case2 d t ih => exact hcons (ih h)
  | case3 => cases h
  | case4 d t hq hd ih => exact hcons (ih h)
  | case5 t =>
      cases h
      exact ⟨[], rfl⟩
  | case6 d t hq ho hd ih => exact hcons (ih h)
  | case7 d b t hq ho hc ih => exact hcons (ih h)
  | case8 m d b t hm ih => exact hcons (ih h)

/-! ## Other tokens -/

/-- All that stands between `l` and `r` are octets of one class. -/
def Consumes (P : UInt8 → Prop) (l r : Bytes) : Prop := ∃ w, l = w ++ r ∧ ∀ b ∈ w, P b

section consumes

variable {P Q : UInt8 → Prop} {l m r : Bytes}

theorem Consumes.refl (l : Bytes) : Consumes P l l := ⟨[], rfl, List.forall_mem_nil _⟩

theorem Consumes.trans (h : Consumes P l m) (h' : Consumes P m r) : Consumes P l r := by
  obtain ⟨w, rfl, hw⟩ := h
  obtain ⟨w', rfl, hw'⟩ := h'
  exact ⟨w ++ w', (List.append_assoc w w' r).symm, List.forall_mem_append.mpr ⟨hw, hw'⟩⟩

theorem Consumes.mono (h : Consumes P l r) (hPQ : ∀ b, P b → Q b) : Consumes Q l r := by
  obtain ⟨w, rfl, hw⟩ := h
  exact ⟨w, rfl, fun b hb => hPQ b (hw b hb)⟩

theorem consumes_dropWhile (q : UInt8 → Bool) (l : Bytes) :
    Consumes (fun b => q b) l (l.dropWhile q) :=
  ⟨l.takeWhile q, List.takeWhile_append_dropWhile.symm, fun _ => List.mem_takeWhile_imp⟩

theorem consumes_tail {q : UInt8 → Bool} (h : startsWith q l) :
    Consumes (fun b => q b) l l.tail := by
  cases l with
  | nil => cases h
  | cons b t => exact ⟨[b], rfl, List.forall_mem_singleton.mpr h⟩

theorem consumes_takeIf (q : UInt8 → Bool) (l : Bytes) :
    Consumes (fun b => q b) l (takeIf q l).2 := by
  unfold takeIf
  split_ifs with h
  · exact consumes_tail h
  · exact .refl l

theorem consumes_literal {word : Bytes} (h : literal word l = some r) :
    Consumes (· ∈ word) l r := by
  unfold literal at h
  split_ifs at h with hbegins
  obtain ⟨t, rfl⟩ := hbegins
  rw [List.drop_left] at h
  cases h
  exact ⟨word, rfl, fun _ => id⟩

theorem consumes_digits (l : Bytes) : Consumes (fun b => isNumberChar b) l (l.dropWhile isdigit) :=
  (consumes_dropWhile isdigit l).mono fun b hb => by simp [isNumberChar, hb]

theorem consumes_fraction (l : Bytes) : Consumes (fun b => isNumberChar b) l (fraction l) := by
  unfold fraction
  split_ifs with h
  · refine ((consumes_tail h).mono fun b hb => ?_).trans (consumes_digits _)
    simp [isNumberChar, of_decide_eq_true hb]
  · exact .refl l

theorem consumes_exponent (l : Bytes) : Consumes (fun b => isNumberChar b) l (exponent l) := by
  unfold exponent
  split_ifs with h
  · have hletter := (consumes_tail h).mono (Q := fun b => isNumberChar b) fun b hb => by
      rcases Bool.or_eq_true_iff.mp hb with hb | hb
      · simp [isNumberChar, of_decide_eq_true hb]
      · simp [isNumberChar, of_decide_eq_true hb]
    have hsign := (consumes_takeIf (fun b => b = plus || b = minus) l.tail).mono
        (Q := fun b => isNumberChar b) fun b hb => by
      rcases Bool.or_eq_true_iff.mp hb with hb | hb
      · simp [isNumberChar, of_decide_eq_true hb]
      · simp [isNumberChar, of_decide_eq_true hb]
    exact hletter.trans (hsign.trans (consumes_digits _))
  · exact .refl l

theorem consumes_minus (l : Bytes) :
    Consumes (fun b => isNumberChar b) l (takeIf (· = minus) l).2 :=
  (consumes_takeIf _ l).mono fun b hb => by simp [isNumberChar, of_decide_eq_true hb]

theorem consumes_number (h : number l = some r) : Consumes (fun b => isNumberChar b) l r := by
  rw [number] at h
  dsimp only at h
  split_ifs at h
  cases h
  exact (consumes_minus l).trans
    ((consumes_digits _).trans ((consumes_fraction _).trans (consumes_exponent _)))

theorem consumes_intDigits {val n : Nat} (h : digits val l = some (n, r)) :
    Consumes (fun b => isNumberChar b) l r := by
  induction l generalizing val with
  | nil =>
      cases h
      exact .refl []
  | cons b t ih =>
      rw [digits] at h
      split_ifs at h with hb hmax
      · have hfirst : Consumes (fun b => isNumberChar b) (b :: t) t :=
          ⟨[b], rfl, List.forall_mem_singleton.mpr (by simp [isNumberChar, hb])⟩
        exact hfirst.trans (ih h)
      · cases h
        exact .refl _

end consumes

end Scan

end McpToolkit
