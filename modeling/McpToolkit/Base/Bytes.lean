import Mathlib.Data.List.Infix
import Mathlib.Data.List.TakeDrop
/-!
# Byte strings

Text is handled as a list of octets, as the `char` buffers of the C++ sources
hold it.  The punctuation of JSON and the character classes that the scanners test get
names here.
-/

namespace McpToolkit

/-- A `char` buffer or a `std::string`. -/
abbrev Bytes := List UInt8

/-- The octets of an ASCII literal. -/
def ascii (s : String) : Bytes := s.toList.map Char.toUInt8

abbrev quote : UInt8 := 0x22
abbrev backslash : UInt8 := 0x5C
abbrev lbrace : UInt8 := 0x7B
abbrev rbrace : UInt8 := 0x7D
abbrev lbracket : UInt8 := 0x5B
abbrev rbracket : UInt8 := 0x5D
abbrev colon : UInt8 := 0x3A
abbrev comma : UInt8 := 0x2C
abbrev minus : UInt8 := 0x2D
abbrev plus : UInt8 := 0x2B
abbrev point : UInt8 := 0x2E
abbrev slash : UInt8 := 0x2F
abbrev space : UInt8 := 0x20
abbrev newline : UInt8 := 0x0A
abbrev percent : UInt8 := 0x25
abbrev lowerE : UInt8 := 0x65
abbrev upperE : UInt8 := 0x45

/-- `std::isspace` in the "C" locale: space, `\t`, `\n`, `\v`, `\f`, `\r`. -/
def isspace (b : UInt8) : Bool := b = space || (9 ≤ b && b ≤ 13)

/-- `std::isdigit`. -/
def isdigit (b : UInt8) : Bool := 0x30 ≤ b && b ≤ 0x39

/-- `std::isalpha` in the "C" locale. -/
def isalpha (b : UInt8) : Bool := (0x41 ≤ b && b ≤ 0x5A) || (0x61 ≤ b && b ≤ 0x7A)

/-- `std::tolower` in the "C" locale. -/
def tolower (b : UInt8) : UInt8 := if 0x41 ≤ b && b ≤ 0x5A then b + 0x20 else b

/-- The value of an ASCII digit, `c - '0'`. -/
def digitValue (b : UInt8) : Nat := b.toNat - 48

/-- A lower-case hexadecimal digit. -/
def hexDigit (n : UInt8) : UInt8 := if n < 10 then 0x30 + n else 0x57 + n

/-- Four of the whitespace octets are the insignificant ones of JSON. -/
def isBlank (b : UInt8) : Bool := b = space || b = 9 || b = newline || b = 13

/-- What holds of each of the 256 octets holds of all. -/
theorem octets_forall {P : UInt8 → Prop} (h : ∀ n < 256, P n.toUInt8) : ∀ c, P c := by
  intro c
  have hc := h c.toNat c.toNat_lt
  rwa [Nat.toUInt8, UInt8.ofNat_toNat] at hc

theorem isspace_of_isBlank {b : UInt8} (h : isBlank b) : isspace b := by
  simp only [isBlank, isspace, Bool.or_eq_true, decide_eq_true_eq, Bool.and_eq_true] at *
  rcases h with ((rfl | rfl) | rfl) | rfl <;> decide

theorem isspace_of_isdigit {b : UInt8} (h : isdigit b) : isspace b = false := by
  simp only [isdigit, Bool.and_eq_true, decide_eq_true_eq] at h
  simp only [isspace, Bool.or_eq_false_iff, decide_eq_false_iff_not, Bool.and_eq_false_iff]
  constructor
  · rintro rfl
    exact absurd h.1 (by decide)
  · right
    intro hb
    exact absurd (UInt8.le_trans h.1 hb) (by decide)

theorem digitValue_le {b : UInt8} (h : isdigit b) : digitValue b ≤ 9 := by
  simp only [isdigit, Bool.and_eq_true, decide_eq_true_eq, UInt8.le_iff_toNat_le] at h
  have hle : b.toNat ≤ 57 := h.2
  rw [digitValue]
  omega

theorem suffix_tail {b : UInt8} {t l : Bytes} (h : b :: t <:+ l) : t <:+ l :=
  (List.suffix_cons b t).trans h

theorem suffix_drop {s t l : Bytes} (h : s ++ t <:+ l) : t <:+ l :=
  (List.suffix_append s t).trans h

theorem dropWhile_suffix {q : UInt8 → Bool} {r l : Bytes} (h : r <:+ l) : r.dropWhile q <:+ l :=
  (List.dropWhile_suffix q).trans h

/-- A text in which the first octet of a pattern does not occur has no part in it. -/
theorem infix_append_of_notMem {q : UInt8} {t a : Bytes} (h : q ∉ a) (b : Bytes) :
    q :: t <:+: a ++ b ↔ q :: t <:+: b := by
  induction a with
  | nil => rfl
  | cons c a ih =>
      rw [List.mem_cons, not_or] at h
      rw [List.cons_append, List.infix_cons_iff, ih h.2, List.cons_prefix_cons]
      exact or_iff_right fun hstart => h.1 hstart.1

/-- A pattern does not reach over an octet that it does not have. -/
theorem infix_append_cons_iff {c : UInt8} {p : Bytes} (h : c ∉ p) (a b : Bytes) :
    p <:+: a ++ c :: b ↔ p <:+: a ∨ p <:+: b := by
  rw [List.infix_append_iff, List.infix_cons_iff]
  constructor
  · rintro (ha | (hb | hb) | ⟨l₁, l₂, rfl, ha, hb⟩)
    · exact .inl ha
    · cases p with
      | nil => exact .inl List.nil_infix
      | cons q p =>
          obtain rfl := (List.cons_prefix_cons.mp hb).1
          exact absurd List.mem_cons_self h
    · exact .inr hb
    · cases l₂ with
      | nil =>
          rw [List.append_nil]
          exact .inl ha.isInfix
      | cons q l₂ =>
          obtain rfl := (List.cons_prefix_cons.mp hb).1
          exact absurd (List.mem_append_right l₁ List.mem_cons_self) h
  · rintro (ha | hb)
    · exact .inl ha
    · exact .inr (.inl (.inr hb))

theorem idxOf?_append_cons {w : Bytes} {b : UInt8} (hw : b ∉ w) (t : Bytes) :
    (w ++ b :: t).idxOf? b = some w.length := by
  have hnone : w.findIdx? (· == b) = none := by
    rw [List.findIdx?_eq_none_iff]
    intro c hc
    rw [beq_eq_false_iff_ne]
    rintro rfl
    exact hw hc
  rw [List.idxOf?, List.findIdx?_append, hnone, List.findIdx?_cons]
  simp

end McpToolkit
