import McpToolkit.Json.Decode
/-!
# White space between tokens

What a tree is without its white space, and what the white space of a tree is.  An
octet that no token has outside strings stands in the white space or in a string.
-/

namespace McpToolkit

/-! ## Without white space -/

def Label.squeeze : {k : Kind} → Label k → Label k
  | _, .element => .element
  | _, .key s _ _ => .key s .none .none

mutual

/-- The value without white space between its tokens. -/
def Value.squeeze : Value → Value
  | .literal l => .literal l
  | .number n => .number n
  | .string s => .string s
  | .empty k _ => .empty k .none
  | .container k es => .container k es.squeeze

def Entries.squeeze : {k : Kind} → Entries k → Entries k
  | _, .last _ l v _ => .last .none l.squeeze v.squeeze .none
  | _, .more _ l v _ es => .more .none l.squeeze v.squeeze .none es.squeeze

end

@[simp] theorem Label.squeeze_squeeze {k : Kind} (l : Label k) : l.squeeze.squeeze = l.squeeze := by
  cases l <;> rfl

@[simp] theorem Label.squeeze_name {k : Kind} (l : Label k) : l.squeeze.name = l.name := by
  cases l <;> rfl

@[simp] theorem Label.squeeze_unescape {k : Kind} (l : Label k) :
    l.squeeze.unescape = l.unescape := by
  cases l <;> rfl

@[simp] theorem Label.squeeze_strs {k : Kind} (l : Label k) : l.squeeze.strs = l.strs := by
  cases l <;> rfl

mutual

@[simp] theorem Value.squeeze_squeeze : ∀ v : Value, v.squeeze.squeeze = v.squeeze
  | .literal _ => rfl
  | .number _ => rfl
  | .string _ => rfl
  | .empty _ _ => rfl
  | .container k es => congrArg (Value.container k) es.squeeze_squeeze

theorem Entries.squeeze_squeeze : ∀ {k : Kind} (es : Entries k), es.squeeze.squeeze = es.squeeze
  | _, .last _ l v _ => by
      simp only [Entries.squeeze, Label.squeeze_squeeze, v.squeeze_squeeze]
  | _, .more _ l v _ es => by
      simp only [Entries.squeeze, Label.squeeze_squeeze, v.squeeze_squeeze, es.squeeze_squeeze]

end

mutual

/-- White space means nothing. -/
@[simp] theorem Value.squeeze_json : ∀ v : Value, v.squeeze.json = v.json
  | .literal _ => rfl
  | .number _ => rfl
  | .string _ => rfl
  | .empty _ _ => rfl
  | .container k es => congrArg k.json es.squeeze_json

theorem Entries.squeeze_json : ∀ {k : Kind} (es : Entries k), es.squeeze.json = es.json
  | _, .last _ l v _ => by
      simp only [Entries.squeeze, Entries.json, Label.squeeze_unescape, v.squeeze_json]
  | _, .more _ l v _ es => by
      simp only [Entries.squeeze, Entries.json, Label.squeeze_unescape, v.squeeze_json,
        es.squeeze_json]

end

mutual

@[simp] theorem Value.squeeze_strs : ∀ v : Value, v.squeeze.strs = v.strs
  | .literal _ => rfl
  | .number _ => rfl
  | .string _ => rfl
  | .empty _ _ => rfl
  | .container _ es => es.squeeze_strs

theorem Entries.squeeze_strs : ∀ {k : Kind} (es : Entries k), es.squeeze.strs = es.strs
  | _, .last _ l v _ => by
      simp only [Entries.squeeze, Entries.strs, Label.squeeze_strs, v.squeeze_strs]
  | _, .more _ l v _ es => by
      simp only [Entries.squeeze, Entries.strs, Label.squeeze_strs, v.squeeze_strs,
        es.squeeze_strs]

end

@[simp] theorem Value.squeeze_string? (v : Value) : v.squeeze.string? = v.string? := by
  cases v <;> rfl

theorem Entries.squeeze_members : ∀ {k : Kind} (es : Entries k),
    es.squeeze.members = es.members.map fun m => (m.1, m.2.squeeze)
  | _, .last _ l v _ => by
      rw [Entries.squeeze, Entries.members, Entries.members, Label.squeeze_name]
      rfl
  | _, .more _ l v _ es => by
      rw [Entries.squeeze, Entries.members, Entries.members, Label.squeeze_name,
        es.squeeze_members, List.map_cons]

theorem Value.squeeze_members (v : Value) :
    v.squeeze.members = v.members.map fun m => (m.1, m.2.squeeze) := by
  cases v with
  | literal l => rfl
  | number n => rfl
  | string s => rfl
  | empty k w => rfl
  | container k es =>
      cases k with
      | array => rfl
      | object => exact es.squeeze_members

/-! ## The white space -/

def Label.blanks : {k : Kind} → Label k → Bytes
  | _, .element => []
  | _, .key _ w w' => w.text ++ w'.text

mutual

/-- The white space between the tokens of a value. -/
def Value.blanks : Value → Bytes
  | .literal _ => []
  | .number _ => []
  | .string _ => []
  | .empty _ w => w.text
  | .container _ es => es.blanks

def Entries.blanks : {k : Kind} → Entries k → Bytes
  | _, .last w l v w' => w.text ++ l.blanks ++ v.blanks ++ w'.text
  | _, .more w l v w' es => w.text ++ l.blanks ++ v.blanks ++ w'.text ++ es.blanks

end

/-- The octets of tokens outside the content of strings. -/
def isMarkup (b : UInt8) : Bool :=
  isNumberChar b || (0x61 ≤ b && b ≤ 0x7A) ||
    [quote, colon, comma, lbrace, rbrace, lbracket, rbracket].contains b

theorem Literal.markup (l : Literal) : ∀ b ∈ l.text, isMarkup b := by
  cases l <;> decide +kernel

theorem Number.markup (n : Number) : ∀ b ∈ n.text, isMarkup b := by
  intro b hb
  rw [isMarkup, n.chars b hb]
  rfl

theorem Kind.opening_markup (k : Kind) : isMarkup k.opening := by
  cases k <;> decide +kernel

theorem Kind.closing_markup (k : Kind) : isMarkup k.closing := by
  cases k <;> decide +kernel

theorem ne_of_isMarkup {b c : UInt8} (hb : isMarkup b = false) (hc : isMarkup c) : b ≠ c := by
  rintro rfl
  rw [hb] at hc
  cases hc

section mem

variable {b : UInt8} (hb : isMarkup b = false)

include hb

theorem notMem_of_markup {l : Bytes} (h : ∀ c ∈ l, isMarkup c) : b ∉ l := fun hmem =>
  ne_of_isMarkup hb (h b hmem) rfl

theorem Label.mem_text_iff {k : Kind} (l : Label k) :
    b ∈ l.text ↔ b ∈ l.blanks ∨ ∃ s ∈ l.strs, b ∈ s.text := by
  cases l with
  | element => simp [Label.text, Label.blanks, Label.strs]
  | key s w w' =>
      have hquote : b ≠ quote := ne_of_isMarkup hb (by decide +kernel)
      have hcolon : b ≠ colon := ne_of_isMarkup hb (by decide +kernel)
      simp only [Label.text, Label.blanks, Label.strs, List.mem_append, List.mem_cons, hquote,
        hcolon, false_or, List.not_mem_nil, or_false, exists_eq_left]
      grind

mutual

/-- Such an octet stands between the tokens or in a string. -/
theorem Value.mem_text_iff : ∀ v : Value,
    b ∈ v.text ↔ b ∈ v.blanks ∨ ∃ s ∈ v.strs, b ∈ s.text
  | .literal l => by
      simp [Value.text, Value.blanks, Value.strs, notMem_of_markup hb l.markup]
  | .number n => by
      simp [Value.text, Value.blanks, Value.strs, notMem_of_markup hb n.markup]
  | .string s => by
      have hquote : b ≠ quote := ne_of_isMarkup hb (by decide +kernel)
      simp [Value.text, Value.blanks, Value.strs, hquote]
  | .empty k w => by
      simp [Value.text, Value.blanks, Value.strs, ne_of_isMarkup hb k.opening_markup,
        ne_of_isMarkup hb k.closing_markup]
  | .container k es => by
      simp [Value.text, Value.blanks, Value.strs, ne_of_isMarkup hb k.opening_markup,
        ne_of_isMarkup hb k.closing_markup, es.mem_text_iff]

theorem Entries.mem_text_iff : ∀ {k : Kind} (es : Entries k),
    b ∈ es.text ↔ b ∈ es.blanks ∨ ∃ s ∈ es.strs, b ∈ s.text
  | _, .last w l v w' => by
      simp only [Entries.text, Entries.blanks, Entries.strs, List.mem_append, l.mem_text_iff hb,
        v.mem_text_iff, or_and_right, exists_or]
      grind
  | _, .more w l v w' es => by
      have hcomma : b ≠ comma := ne_of_isMarkup hb (by decide +kernel)
      simp only [Entries.text, Entries.blanks, Entries.strs, List.mem_append, List.mem_cons,
        hcomma, false_or, l.mem_text_iff hb, v.mem_text_iff, es.mem_text_iff, or_and_right,
        exists_or]
      grind

end

end mem

section patterns

variable {q : UInt8} {t : Bytes} (hq : isMarkup q = false) (hblank : isBlank q = false)
variable (ht : quote ∉ t)

include hq in
theorem infix_cons_of_markup {c : UInt8} (hc : isMarkup c) (r : Bytes) :
    q :: t <:+: c :: r ↔ q :: t <:+: r := by
  have hne : q ∉ [c] := fun h => ne_of_isMarkup hq hc (List.mem_singleton.mp h)
  exact infix_append_of_notMem hne r

include hblank in
theorem Ws.infix_append (w : Ws) (r : Bytes) : q :: t <:+: w.text ++ r ↔ q :: t <:+: r := by
  refine infix_append_of_notMem (fun h => ?_) r
  have := w.blank q h
  rw [hblank] at this
  cases this

include hq ht in
theorem infix_string (s : Str) (r : Bytes) :
    q :: t <:+: quote :: (s.text ++ quote :: r) ↔ q :: t <:+: s.text ∨ q :: t <:+: r := by
  have hquote : quote ∉ q :: t := by
    rw [List.mem_cons, not_or]
    exact ⟨(ne_of_isMarkup hq (by decide +kernel)).symm, ht⟩
  rw [infix_cons_of_markup hq (by decide +kernel), infix_append_cons_iff hquote]

include hq hblank ht

theorem Label.infix_text {k : Kind} (l : Label k) (r : Bytes) :
    q :: t <:+: l.text ++ r ↔ (∃ s ∈ l.strs, q :: t <:+: s.text) ∨ q :: t <:+: r := by
  cases l with
  | element => simp [Label.text, Label.strs]
  | key s w w' =>
      have htext : (Label.key s w w').text ++ r =
          quote :: (s.text ++ quote :: (w.text ++ colon :: (w'.text ++ r))) := by
        simp [Label.text]
      rw [htext, infix_string hq ht, w.infix_append hblank,
        infix_cons_of_markup hq (by decide +kernel), w'.infix_append hblank]
      simp [Label.strs]

mutual

/-- A pattern that begins with such an octet, no blank, and has no quote stands in a
string. -/
theorem Value.infix_text : ∀ (v : Value) (r : Bytes),
    q :: t <:+: v.text ++ r ↔ (∃ s ∈ v.strs, q :: t <:+: s.text) ∨ q :: t <:+: r
  | .literal l, r => by
      rw [Value.text, infix_append_of_notMem (notMem_of_markup hq l.markup)]
      simp [Value.strs]
  | .number n, r => by
      rw [Value.text, infix_append_of_notMem (notMem_of_markup hq n.markup)]
      simp [Value.strs]
  | .string s, r => by
      have htext : (Value.string s).text ++ r = quote :: (s.text ++ quote :: r) := by
        simp [Value.text]
      rw [htext, infix_string hq ht]
      simp [Value.strs]
  | .empty k w, r => by
      have htext : (Value.empty k w).text ++ r = k.opening :: (w.text ++ k.closing :: r) := by
        simp [Value.text]
      rw [htext, infix_cons_of_markup hq k.opening_markup, w.infix_append hblank,
        infix_cons_of_markup hq k.closing_markup]
      simp [Value.strs]
  | .container k es, r => by
      have htext : (Value.container k es).text ++ r = k.opening :: (es.text ++ k.closing :: r) := by
        simp [Value.text]
      rw [htext, infix_cons_of_markup hq k.opening_markup, es.infix_text,
        infix_cons_of_markup hq k.closing_markup, Value.strs]

theorem Entries.infix_text : ∀ {k : Kind} (es : Entries k) (r : Bytes),
    q :: t <:+: es.text ++ r ↔ (∃ s ∈ es.strs, q :: t <:+: s.text) ∨ q :: t <:+: r
  | _, .last w l v w', r => by
      have htext : (Entries.last w l v w').text ++ r =
          w.text ++ (l.text ++ (v.text ++ (w'.text ++ r))) := by
        simp [Entries.text]
      rw [htext, w.infix_append hblank, l.infix_text hq hblank ht, v.infix_text,
        w'.infix_append hblank]
      simp only [Entries.strs, List.mem_append, or_and_right, exists_or, or_assoc]
  | _, .more w l v w' es, r => by
      have htext : (Entries.more w l v w' es).text ++ r =
          w.text ++ (l.text ++ (v.text ++ (w'.text ++ comma :: (es.text ++ r)))) := by
        simp [Entries.text]
      rw [htext, w.infix_append hblank, l.infix_text hq hblank ht, v.infix_text,
        w'.infix_append hblank, infix_cons_of_markup hq (by decide +kernel), es.infix_text]
      simp only [Entries.strs, List.mem_append, or_and_right, exists_or, or_assoc]

end

end patterns

end McpToolkit
