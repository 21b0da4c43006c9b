import McpToolkit.Adapter.Search
import McpToolkit.Json.Complete
import Mathlib.Data.List.Pairwise
/-!
# The strings of a JSON text

Every string literal of a syntax tree in the order of the text, the keys apart
from the values, each with what follows it.  A search over the quotes of the text
is a search over these strings: a quote is in front of the word that is looked
for when it opens a string that is the word or when it is an escaped one and the
string ends with the word.
-/

namespace McpToolkit

open Scan Search

/-- A member of an object in a text, and what follows its value there. -/
structure Placed where
  name : Bytes
  value : Value
  rest : Bytes

namespace Placed

/-- The text from the value on. -/
def start (m : Placed) : Bytes := m.value.text ++ m.rest

/-- The place of the value. -/
def slice (m : Placed) : Slice := ⟨m.start, m.rest⟩

/-- The place of the content of a string. -/
def content (m : Placed) : Option Slice :=
  m.value.string?.map fun s => ⟨s ++ quote :: m.rest, quote :: m.rest⟩

end Placed

/-- A string literal in a text. -/
inductive Token where
  | key (w w' : Ws) (m : Placed)
  | value (s : Bytes) (r : Bytes)

namespace Token

/-- The raw text of the string. -/
def text : Token → Bytes
  | .key _ _ m => m.name
  | .value s _ => s

/-- What follows its closing quote. -/
def rest : Token → Bytes
  | .key w w' m => w.text ++ colon :: (w'.text ++ m.start)
  | .value _ r => r

def member? : Token → Option Placed
  | .key _ _ m => some m
  | .value _ _ => none

end Token

/-- The key of a member with value `v`, in front of which nothing else is left
than `r` behind the value. -/
def Label.tokens : {k : Kind} → Label k → Value → Bytes → List Token
  | _, .element, _, _ => []
  | _, .key s w w', v, r => [.key w w' ⟨s.text, v, r⟩]

mutual

/-- The strings of a value that is followed by `r`. -/
def Value.tokens : Value → Bytes → List Token
  | .literal _, _ => []
  | .number _, _ => []
  | .string s, r => [.value s.text r]
  | .empty _ _, _ => []
  | .container k es, r => es.tokens (k.closing :: r)

def Entries.tokens : {k : Kind} → Entries k → Bytes → List Token
  | _, .last _ l v w', r => l.tokens v (w'.text ++ r) ++ v.tokens (w'.text ++ r)
  | _, .more _ l v w' es, r =>
      l.tokens v (w'.text ++ comma :: (es.text ++ r)) ++
        v.tokens (w'.text ++ comma :: (es.text ++ r)) ++ es.tokens r

end

def Label.placed {k : Kind} (l : Label k) (v : Value) (r : Bytes) : List Placed :=
  (l.tokens v r).filterMap Token.member?

/-- The members themselves, without those inside their values. -/
def Entries.placed : {k : Kind} → Entries k → Bytes → List Placed
  | _, .last _ l v w', r => l.placed v (w'.text ++ r)
  | _, .more _ l v w' es, r => l.placed v (w'.text ++ comma :: (es.text ++ r)) ++ es.placed r

/-- The top-level members of a value that is followed by `r`. -/
def Value.placed : Value → Bytes → List Placed
  | .container k es, r => es.placed (k.closing :: r)
  | _, _ => []

/-- The members at any depth of a value that is followed by `r`. -/
def Value.allPlaced (v : Value) (r : Bytes) : List Placed :=
  (v.tokens r).filterMap Token.member?

/-! ## One string -/

/-- The octets of the words that the adapter looks for. -/
def isKeyChar (b : UInt8) : Bool := (0x61 ≤ b && b ≤ 0x7A) || b = 0x5F

/-- A word of lower-case letters and underscores. -/
structure Identifier (key : Bytes) : Prop where
  ne_nil : key ≠ []
  letters : key.all isKeyChar

theorem Identifier.isKeyChar {key : Bytes} (h : Identifier key) {b : UInt8} (hb : b ∈ key) :
    isKeyChar b = true :=
  List.all_eq_true.mp h.letters b hb

theorem ne_of_isKeyChar {b c : UInt8} (hb : isKeyChar b = true) (hc : isKeyChar c = false) :
    b ≠ c := by
  rintro rfl
  rw [hb] at hc
  cases hc

/-- A text that does not go on with a letter of a word. -/
def Breaks (l : Bytes) : Prop := startsWith isKeyChar l = false

/-- The string is the key, or ends with an escaped quote and the key. -/
def Hit (key s : Bytes) : Prop := s = key ∨ quote :: key <:+ s

instance (key s : Bytes) : Decidable (Hit key s) := inferInstanceAs (Decidable (_ ∨ _))

section identifier

variable {key : Bytes} (hkey : Identifier key)

include hkey

theorem keyed_of_breaks {l : Bytes} (h : Breaks l) : keyed key l = none := by
  by_contra hne
  obtain ⟨r, hr⟩ := Option.ne_none_iff_exists'.mp hne
  obtain ⟨b, t, ht⟩ := List.exists_cons_of_ne_nil hkey.ne_nil
  rw [Breaks, keyed_eq_some hr, ht, List.cons_append, startsWith] at h
  rw [hkey.isKeyChar (ht ▸ List.mem_cons_self)] at h
  cases h

theorem quote_notMem : quote ∉ key := fun h =>
  ne_of_isKeyChar (hkey.isKeyChar h) (by decide) rfl

theorem run_identifier : Mode.string.run key = .string := by
  have hrun : ∀ l : Bytes, (∀ b ∈ l, isKeyChar b = true) → Mode.string.run l = .string := by
    intro l
    induction l with
    | nil => exact fun _ => rfl
    | cons b t ih =>
        intro h
        rw [List.forall_mem_cons] at h
        rw [Mode.run_cons, Mode.next_string (ne_of_isKeyChar h.1 (by decide))
          (ne_of_isKeyChar h.1 (by decide)), ih h.2]
  exact hrun key fun b hb => hkey.isKeyChar hb

/-- Behind the opening quote of a string stands the key only if it is the string. -/
theorem keyed_enclosed {s : Bytes} (hs : Enclosed s) (r : Bytes) :
    keyed key (s ++ quote :: r) = if s = key then some r else none := by
  split_ifs with h
  · rw [h, keyed_append]
  · by_contra hne
    obtain ⟨r', hr'⟩ := Option.ne_none_iff_exists'.mp hne
    rcases List.append_eq_append_iff.mp (keyed_eq_some hr') with ⟨c, hc, ht⟩ | ⟨c, hc, ht⟩
    · cases c with
      | nil => exact h (by rw [hc, List.append_nil])
      | cons b c =>
          have hb : quote = b := List.head_eq_of_cons_eq ht
          exact quote_notMem hkey (by rw [hc, hb]; simp)
    · cases c with
      | nil => exact h (by rw [hc, List.append_nil])
      | cons b c =>
          obtain rfl : quote = b := List.head_eq_of_cons_eq ht
          have := hs.quotes key c hc
          rw [run_identifier hkey] at this
          cases this

variable {α : Type} (g : Bytes → Option α)

/-- The search from inside a string on. -/
theorem atQuotes_content {s : Bytes} (hs : Enclosed s) {r : Bytes} (hr : Breaks r) :
    atQuotes (fun t => (keyed key t).bind g) (s ++ quote :: r) =
      (if quote :: key <:+ s then g r else none).or
        (atQuotes (fun t => (keyed key t).bind g) r) := by
  induction s using string.induct with
  | case1 =>
      rw [List.nil_append, atQuotes_quote, keyed_of_breaks hkey hr, if_neg (by simp)]
      rfl
  | case2 t => exact absurd rfl hs.quotes.head_ne
  | case3 => cases hs.ends
  | case4 e t hq ih =>
      have ht := hs.of_escape
      have hne : quote ≠ backslash := by decide
      have hback : (backslash :: e :: t) ++ quote :: r = backslash :: (e :: (t ++ quote :: r)) := rfl
      rw [hback, atQuotes_cons (by decide)]
      by_cases he : e = quote
      · subst he
        have hsuffix : quote :: key <:+ backslash :: quote :: t ↔
            t = key ∨ quote :: key <:+ t := by
          rw [List.suffix_cons_iff, List.suffix_cons_iff]
          simp [hne, eq_comm]
        rw [atQuotes_quote, keyed_enclosed hkey ht, ih ht]
        simp only [hsuffix]
        by_cases hkt : t = key
        · simp only [hkt, if_true, true_or, Option.bind_some]
          cases g r with
          | none => split_ifs <;> simp
          | some x => simp
        · simp [hkt]
      · have hsuffix : quote :: key <:+ backslash :: e :: t ↔ quote :: key <:+ t := by
          rw [List.suffix_cons_iff, List.suffix_cons_iff]
          simp [hne, Ne.symm he]
        rw [atQuotes_cons he, ih ht]
        simp only [hsuffix]
  | case5 b t hq hb ih =>
      have hsuffix : quote :: key <:+ b :: t ↔ quote :: key <:+ t := by
        rw [List.suffix_cons_iff]
        simp [Ne.symm hq]
      rw [List.cons_append, atQuotes_cons hq, ih (hs.of_cons hq hb)]
      simp only [hsuffix]

/-- The search at a string. -/
theorem atQuotes_string {s : Bytes} (hs : Enclosed s) {r : Bytes} (hr : Breaks r) :
    atQuotes (fun t => (keyed key t).bind g) (quote :: (s ++ quote :: r)) =
      (if Hit key s then g r else none).or (atQuotes (fun t => (keyed key t).bind g) r) := by
  rw [atQuotes_quote, keyed_enclosed hkey hs, atQuotes_content hkey g hs hr]
  unfold Hit
  by_cases hsk : s = key
  · simp only [hsk, if_true, true_or, Option.bind_some]
    cases g r with
    | none => split_ifs <;> simp
    | some x => simp
  · simp [hsk]

end identifier

/-! ## All strings -/

theorem Ws.breaks (w : Ws) {l : Bytes} (h : Breaks l) : Breaks (w.text ++ l) := by
  cases hw : w.text with
  | nil => exact h
  | cons b t =>
      have hb := w.blank b (hw ▸ List.mem_cons_self)
      simp only [isBlank, Bool.or_eq_true, decide_eq_true_eq] at hb
      rcases hb with ((rfl | rfl) | rfl) | rfl <;> rfl

theorem breaks_closing (k : Kind) (r : Bytes) : Breaks (k.closing :: r) := by
  cases k <;> rfl

theorem quote_notMem_of_plain {w : Bytes} (h : ∀ b ∈ w, Plain b) : quote ∉ w := fun hq =>
  (h _ hq).1 rfl

section strings

variable {key : Bytes} (hkey : Identifier key) {α : Type} (g : Bytes → Option α)

/-- What the search makes of one string. -/
def Token.found (key : Bytes) (g : Bytes → Option α) (t : Token) : Option α :=
  if Hit key t.text then g t.rest else none

include hkey

theorem Label.atQuotes {k : Kind} (l : Label k) (v : Value) (r : Bytes) :
    atQuotes (fun t => (keyed key t).bind g) (l.text ++ (v.text ++ r)) =
      ((l.tokens v r).findSome? (Token.found key g)).or
        (atQuotes (fun t => (keyed key t).bind g) (v.text ++ r)) := by
  cases l with
  | element => rfl
  | key s w w' =>
      have htext : (Label.key s w w').text ++ (v.text ++ r) =
          quote :: (s.text ++ quote :: (w.text ++ colon :: (w'.text ++ (v.text ++ r)))) := by
        simp [Label.text]
      have hbreaks : Breaks (w.text ++ colon :: (w'.text ++ (v.text ++ r))) := w.breaks rfl
      rw [htext, atQuotes_string hkey g s.enclosed hbreaks,
        atQuotes_append (quote_notMem_of_plain w.plain), atQuotes_cons (by decide),
        atQuotes_append (quote_notMem_of_plain w'.plain)]
      rw [Label.tokens, List.findSome?_singleton]
      rfl

mutual

/-- A search for an identifier tries the strings of a value in order. -/
theorem Value.atQuotes : ∀ (v : Value) (r : Bytes), Breaks r →
    Search.atQuotes (fun t => (keyed key t).bind g) (v.text ++ r) =
      ((v.tokens r).findSome? (Token.found key g)).or
        (Search.atQuotes (fun t => (keyed key t).bind g) r)
  | .literal l, r, _ => by
      rw [Value.text, atQuotes_append (quote_notMem_of_plain l.plain)]
      rfl
  | .number n, r, _ => by
      rw [Value.text, atQuotes_append (quote_notMem_of_plain n.plain)]
      rfl
  | .string s, r, hr => by
      have htext : (Value.string s).text ++ r = quote :: (s.text ++ quote :: r) := by
        simp [Value.text]
      rw [htext, atQuotes_string hkey g s.enclosed hr, Value.tokens, List.findSome?_singleton]
      rfl
  | .empty k w, r, _ => by
      have htext : (Value.empty k w).text ++ r = k.opening :: (w.text ++ k.closing :: r) := by
        simp [Value.text]
      rw [htext, atQuotes_cons k.opening_ne_quote, atQuotes_append (quote_notMem_of_plain w.plain),
        atQuotes_cons k.closing_ne_quote]
      rfl
  | .container k es, r, _ => by
      have htext : (Value.container k es).text ++ r = k.opening :: (es.text ++ k.closing :: r) := by
        simp [Value.text]
      rw [htext, atQuotes_cons k.opening_ne_quote, Entries.atQuotes es _ (breaks_closing k r),
        atQuotes_cons k.closing_ne_quote, Value.tokens]

theorem Entries.atQuotes : ∀ {k : Kind} (es : Entries k) (r : Bytes), Breaks r →
    Search.atQuotes (fun t => (keyed key t).bind g) (es.text ++ r) =
      ((es.tokens r).findSome? (Token.found key g)).or
        (Search.atQuotes (fun t => (keyed key t).bind g) r)
  | _, .last w l v w', r, hr => by
      have htext : (Entries.last w l v w').text ++ r =
          w.text ++ (l.text ++ (v.text ++ (w'.text ++ r))) := by
        simp [Entries.text]
      rw [htext, atQuotes_append (quote_notMem_of_plain w.plain), Label.atQuotes hkey,
        Value.atQuotes v _ (w'.breaks hr), atQuotes_append (quote_notMem_of_plain w'.plain),
        Entries.tokens, List.findSome?_append, Option.or_assoc]
  | _, .more w l v w' es, r, hr => by
      have htext : (Entries.more w l v w' es).text ++ r =
          w.text ++ (l.text ++ (v.text ++ (w'.text ++ comma :: (es.text ++ r)))) := by
        simp [Entries.text]
      have hbreaks : Breaks (w'.text ++ comma :: (es.text ++ r)) := w'.breaks rfl
      rw [htext, atQuotes_append (quote_notMem_of_plain w.plain), Label.atQuotes hkey,
        Value.atQuotes v _ hbreaks, atQuotes_append (quote_notMem_of_plain w'.plain),
        atQuotes_cons (by decide), Entries.atQuotes es r hr, Entries.tokens,
        List.findSome?_append, List.findSome?_append, Option.or_assoc, Option.or_assoc]

end

end strings

/-! ## Where the members stand -/

/-- Members in the order of the text, whose values stand between two distances
from its end. -/
structure Within (lo hi : Nat) (ms : List Placed) : Prop where
  lower : ∀ m ∈ ms, lo < m.start.length
  upper : ∀ m ∈ ms, m.start.length < hi
  decreasing : ms.Pairwise fun m m' => m'.start.length < m.start.length

namespace Within

variable {lo hi : Nat} {ms ms' : List Placed}

theorem nil : Within lo hi [] := by
  constructor <;> simp

theorem mono (h : Within lo hi ms) {lo' hi' : Nat} (hlo : lo' ≤ lo) (hhi : hi ≤ hi') :
    Within lo' hi' ms where
  lower m hm := Nat.lt_of_le_of_lt hlo (h.lower m hm)
  upper m hm := Nat.lt_of_lt_of_le (h.upper m hm) hhi
  decreasing := h.decreasing

theorem cons {m : Placed} (h : Within lo m.start.length ms) (hlo : lo < m.start.length)
    (hhi : m.start.length < hi) : Within lo hi (m :: ms) where
  lower := List.forall_mem_cons.mpr ⟨hlo, h.lower⟩
  upper := List.forall_mem_cons.mpr ⟨hhi, fun m' hm' => (h.upper m' hm').trans hhi⟩
  decreasing := List.pairwise_cons.mpr ⟨h.upper, h.decreasing⟩

theorem append {mid : Nat} (h : Within mid hi ms) (h' : Within lo mid ms') (hlo : lo ≤ mid)
    (hhi : mid ≤ hi) : Within lo hi (ms ++ ms') where
  lower m hm := by
    rcases List.mem_append.mp hm with hm | hm
    · exact Nat.lt_of_le_of_lt hlo (h.lower m hm)
    · exact h'.lower m hm
  upper m hm := by
    rcases List.mem_append.mp hm with hm | hm
    · exact h.upper m hm
    · exact Nat.lt_of_lt_of_le (h'.upper m hm) hhi
  decreasing := List.pairwise_append.mpr
    ⟨h.decreasing, h'.decreasing, fun m hm m' hm' => (h'.upper m' hm').trans (h.lower m hm)⟩

/-- The place of its value tells a member from all others. -/
theorem eq_of_start (h : Within lo hi ms) {m m' : Placed} (hm : m ∈ ms) (hm' : m' ∈ ms)
    (hstart : m.start.length = m'.start.length) : m = m' := by
  by_contra hne
  have hdiff : ms.Pairwise fun m m' => m.start.length ≠ m'.start.length :=
    h.decreasing.imp fun hlt => by omega
  have hsymm : Std.Symm fun m m' : Placed => m.start.length ≠ m'.start.length :=
    ⟨fun _ _ hab => hab.symm⟩
  exact hdiff.forall hm hm' hne hstart

end Within

/-- The members of an entry: the one that it is, and those in its value. -/
theorem entry_within {k : Kind} (l : Label k) {v : Value} {r : Bytes}
    (hv : Within r.length (v.text ++ r).length (v.allPlaced r)) :
    Within r.length (l.text ++ (v.text ++ r)).length
      ((l.tokens v r ++ v.tokens r).filterMap Token.member?) := by
  cases l with
  | element => exact hv
  | key s w w' =>
      have hpos := List.length_pos_of_ne_nil v.text_ne_nil
      refine Within.cons (m := ⟨s.text, v, r⟩) hv ?_ ?_
      · simp only [Placed.start, List.length_append]
        omega
      · simp only [Placed.start, Label.text, List.length_append, List.length_cons]
        omega

mutual

theorem Value.allPlaced_within : ∀ (v : Value) (r : Bytes),
    Within r.length (v.text ++ r).length (v.allPlaced r)
  | .literal _, _ => .nil
  | .number _, _ => .nil
  | .string _, _ => .nil
  | .empty _ _, _ => .nil
  | .container k es, r => by
      refine (Entries.tokens_within es (k.closing :: r)).mono ?_ ?_
      · simp
      · simp [Value.text]

theorem Entries.tokens_within : ∀ {k : Kind} (es : Entries k) (r : Bytes),
    Within r.length (es.text ++ r).length ((es.tokens r).filterMap Token.member?)
  | _, .last w l v w', r => by
      refine (entry_within l (Value.allPlaced_within v (w'.text ++ r))).mono ?_ ?_
      · simp
      · simp [Entries.text]
  | _, .more w l v w' es, r => by
      have hfirst := entry_within l (Value.allPlaced_within v (w'.text ++ comma :: (es.text ++ r)))
      have hothers := Entries.tokens_within es r
      rw [Entries.tokens, List.filterMap_append]
      refine Within.append (hfirst.mono (le_refl _) ?_) (hothers.mono (le_refl _) ?_) ?_ ?_
      · simp [Entries.text]
      · simp
        omega
      · simp
        omega
      · simp [Entries.text]
        omega

end

theorem Entries.placed_subset : ∀ {k : Kind} (es : Entries k) (r : Bytes),
    es.placed r ⊆ (es.tokens r).filterMap Token.member?
  | _, .last _ l v w', r => by
      rw [Entries.placed, Entries.tokens, List.filterMap_append]
      exact List.subset_append_left _ _
  | _, .more _ l v w' es, r => by
      rw [Entries.placed, Entries.tokens, List.filterMap_append, List.filterMap_append]
      refine List.append_subset.mpr ⟨?_, ?_⟩
      · exact List.Subset.trans (List.subset_append_left _ _) (List.subset_append_left _ _)
      · exact List.Subset.trans (es.placed_subset r) (List.subset_append_right _ _)

theorem Value.placed_subset (v : Value) (r : Bytes) : v.placed r ⊆ v.allPlaced r := by
  cases v with
  | container k es => exact es.placed_subset (k.closing :: r)
  | literal l => exact List.nil_subset _
  | number n => exact List.nil_subset _
  | string s => exact List.nil_subset _
  | empty k w => exact List.nil_subset _

/-! ## What follows the strings -/

theorem Ws.dropWhile (w : Ws) {b : UInt8} (hb : isBlank b = false) (r : Bytes) :
    (w.text ++ b :: r).dropWhile isBlank = b :: r := by
  rw [List.dropWhile_append_of_pos w.blank, List.dropWhile_cons_of_neg]
  rw [hb]
  exact Bool.false_ne_true

theorem after_ws (w : Ws) {b : UInt8} (hb : isBlank b = false) (c : UInt8) (r : Bytes) :
    after c (w.text ++ b :: r) = if b = c then some r else none := by
  rw [after, w.dropWhile hb]

theorem after_blanks (w : Ws) (c : UInt8) : after c w.text = none := by
  rw [after, List.dropWhile_eq_nil_iff.mpr w.blank]

/-- Behind a member there is a comma or a closing brace, and behind a string that
is a value no colon. -/
def Token.Fits : Token → Prop
  | .key _ _ m => ∃ (w : Ws) (b : UInt8) (t : Bytes), m.rest = w.text ++ b :: t ∧
      (b = comma ∨ b = rbrace)
  | .value _ r => after colon r = none

theorem Label.tokens_fit {k : Kind} (l : Label k) (v : Value) (w : Ws) {b : UInt8}
    (hb : b = comma ∨ b = k.closing) (r : Bytes) :
    ∀ t ∈ l.tokens v (w.text ++ b :: r), t.Fits := by
  cases l with
  | element => exact List.forall_mem_nil _
  | key s w₁ w₂ =>
      intro t ht
      rw [List.mem_singleton.mp ht]
      exact ⟨w, b, r, rfl, hb⟩

theorem after_colon_closing (w : Ws) {k : Kind} {b : UInt8} (hb : b = comma ∨ b = k.closing)
    (r : Bytes) : after colon (w.text ++ b :: r) = none := by
  have hblank : isBlank b = false ∧ b ≠ colon := by
    rcases hb with rfl | rfl
    · decide
    · cases k <;> decide
  rw [after_ws w hblank.1, if_neg hblank.2]

mutual

theorem Value.tokens_fit : ∀ (v : Value) (r : Bytes), after colon r = none →
    ∀ t ∈ v.tokens r, t.Fits
  | .literal _, _, _ => List.forall_mem_nil _
  | .number _, _, _ => List.forall_mem_nil _
  | .string s, r, hr => by
      intro t ht
      rw [List.mem_singleton.mp ht]
      exact hr
  | .empty _ _, _, _ => List.forall_mem_nil _
  | .container _ es, r, _ => Entries.tokens_fit es r

theorem Entries.tokens_fit : ∀ {k : Kind} (es : Entries k) (r : Bytes),
    ∀ t ∈ es.tokens (k.closing :: r), t.Fits
  | k, .last w l v w', r, t, ht => by
      rcases List.mem_append.mp ht with ht | ht
      · exact l.tokens_fit v w' (.inr rfl) r t ht
      · exact Value.tokens_fit v _ (after_colon_closing w' (k := k) (.inr rfl) r) t ht
  | k, .more w l v w' es, r, t, ht => by
      rcases List.mem_append.mp ht with ht | ht
      · rcases List.mem_append.mp ht with ht | ht
        · exact l.tokens_fit v w' (.inl rfl) _ t ht
        · exact Value.tokens_fit v _ (after_colon_closing w' (k := k) (.inl rfl) _) t ht
      · exact Entries.tokens_fit es r t ht

end

end McpToolkit
