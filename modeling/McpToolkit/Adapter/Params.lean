import McpToolkit.Adapter.Locate
import McpToolkit.Adapter.Tokens
/-!
# The string under a key

`extract_string` on the text of an object.  It knows neither of nesting nor of
strings, so what it reads is a top-level member under a condition on the first
member, at any depth, that looks like one with the key; the condition is also
necessary.
-/

namespace McpToolkit

open Scan Search MCPAdapter

theorem Value.object_concat (v : Value) (h : v.isObject) : ∃ w, v.text = w ++ [rbrace] := by
  cases v with
  | empty k w =>
      cases k with
      | array => cases h
      | object => exact ⟨lbrace :: w.text, rfl⟩
  | container k es =>
      cases k with
      | array => cases h
      | object => exact ⟨lbrace :: es.text, rfl⟩
  | literal l => cases h
  | number n => cases h
  | string s => cases h

/-- An object with white space around it. -/
structure ObjectText where
  before : Ws
  value : Value
  after : Ws
  isObject : value.isObject

namespace ObjectText

def text (q : ObjectText) : Bytes := q.before.text ++ (q.value.text ++ q.after.text)

/-- The top-level members. -/
def members (q : ObjectText) : List Placed := q.value.placed q.after.text

/-- The members at any depth. -/
def allMembers (q : ObjectText) : List Placed := q.value.allPlaced q.after.text

/-- The keys and the strings, in the order of the text. -/
def strings (q : ObjectText) : List Token := q.value.tokens q.after.text

theorem mem_allMembers {q : ObjectText} {m : Placed} (h : m ∈ q.members) : m ∈ q.allMembers :=
  q.value.placed_subset _ h

theorem fit (q : ObjectText) : ∀ t ∈ q.strings, t.Fits :=
  q.value.tokens_fit _ (after_blanks q.after colon)

theorem start_le {q : ObjectText} {m : Placed} (h : m ∈ q.allMembers) :
    m.start.length ≤ q.text.length := by
  have := (q.value.allPlaced_within q.after.text).upper m h
  rw [text, List.length_append]
  omega

theorem eq_of_start {q : ObjectText} {m m' : Placed} (hm : m ∈ q.allMembers)
    (hm' : m' ∈ q.allMembers) (h : m.start.length = m'.start.length) : m = m' :=
  (q.value.allPlaced_within q.after.text).eq_of_start hm hm' h

/-- The text ends with a bracket or a blank. -/
theorem noDangling (q : ObjectText) : NoDangling q.text := by
  have hlast : ∃ l b, q.text = l ++ [b] ∧ b ≠ backslash := by
    rcases List.eq_nil_or_concat q.after.text with h | ⟨l, b, h⟩
    · obtain ⟨w, hw⟩ := q.value.object_concat q.isObject
      refine ⟨q.before.text ++ w, rbrace, ?_, by decide⟩
      rw [text, h, hw, List.append_nil, List.append_assoc]
    · have hb : isBlank b := q.after.blank b (by rw [h]; simp)
      refine ⟨q.before.text ++ (q.value.text ++ l), b, ?_, ?_⟩
      · rw [text, h]
        simp
      · rintro rfl
        exact absurd hb (by decide)
  obtain ⟨l, b, htext, hb⟩ := hlast
  rintro ⟨w, hw⟩
  rw [htext] at hw
  exact hb (List.append_inj_right' hw rfl |> List.head_eq_of_cons_eq).symm

theorem breaks_after (q : ObjectText) : Breaks q.after.text := by
  have := q.after.breaks (l := []) rfl
  rwa [List.append_nil] at this

theorem atQuotes {α : Type} {key : Bytes} (hkey : Identifier key) (g : Bytes → Option α)
    (q : ObjectText) : Search.atQuotes (fun t => (keyed key t).bind g) q.text =
      q.strings.findSome? (Token.found key g) := by
  have hafter := atQuotes_append (f := fun t => (keyed key t).bind g)
    (quote_notMem_of_plain q.after.plain) []
  rw [List.append_nil] at hafter
  rw [text, atQuotes_append (quote_notMem_of_plain q.before.plain),
    q.value.atQuotes hkey g _ q.breaks_after, hafter, atQuotes_nil, Option.or_none]
  rfl

end ObjectText

/-! ## Strings -/

/-- The member is taken for one with the key and a string. -/
def StringMember (key : Bytes) (m : Placed) : Prop :=
  Hit key m.name ∧ m.value.string?.isSome

instance (key : Bytes) (m : Placed) : Decidable (StringMember key m) :=
  inferInstanceAs (Decidable (_ ∧ _))

/-- Numbers and the three literals. -/
def Value.isScalar : Value → Bool
  | .literal _ => true
  | .number _ => true
  | _ => false

def isScalarChar (b : UInt8) : Bool := isNumberChar b || isKeyChar b

theorem Value.scalar_chars {v : Value} (h : v.isScalar) : ∀ b ∈ v.text, isScalarChar b := by
  cases v with
  | literal l => cases l <;> decide +kernel
  | number n =>
      intro b hb
      simp [isScalarChar, n.chars b hb]
  | string s => cases h
  | empty k w => cases h
  | container k es => cases h

theorem ne_of_isScalarChar {b c : UInt8} (hb : isScalarChar b) (hc : isScalarChar c = false) :
    b ≠ c := by
  rintro rfl
  rw [hb] at hc
  cases hc

theorem Value.scalar_cons {v : Value} (h : v.isScalar) :
    ∃ b t, v.text = b :: t ∧ isScalarChar b := by
  obtain ⟨b, t, ht⟩ := List.exists_cons_of_ne_nil v.text_ne_nil
  exact ⟨b, t, ht, v.scalar_chars h b (ht ▸ List.mem_cons_self)⟩

theorem isBlank_of_isScalarChar {b : UInt8} (hb : isScalarChar b) : isBlank b = false := by
  have hne := fun c hc => decide_eq_false (ne_of_isScalarChar (c := c) hb hc)
  rw [isBlank, hne space (by decide), hne 9 (by decide), hne newline (by decide),
    hne 13 (by decide)]
  rfl

/-- Behind a colon the opening quote of a string stands in front of strings only. -/
theorem after_quote_value (v : Value) (w : Ws) (r : Bytes) :
    after quote (w.text ++ (v.text ++ r)) = v.string?.map fun s => s ++ quote :: r := by
  have hother : ∀ {b t}, v.text = b :: t → isBlank b = false → b ≠ quote →
      after quote (w.text ++ (v.text ++ r)) = none := fun {b t} ht hblank hb => by
    rw [ht, List.cons_append, after_ws w hblank, if_neg hb]
  have hscalar : v.isScalar → after quote (w.text ++ (v.text ++ r)) = none := fun h => by
    obtain ⟨b, t, ht, hb⟩ := v.scalar_cons h
    exact hother ht (isBlank_of_isScalarChar hb) (ne_of_isScalarChar hb (by decide))
  cases v with
  | string s =>
      have htext : (Value.string s).text ++ r = quote :: (s.text ++ quote :: r) := by
        simp [Value.text]
      rw [htext, after_ws w (by decide), if_pos rfl]
      rfl
  | literal l => exact hscalar rfl
  | number n => exact hscalar rfl
  | empty k w' => exact hother rfl (by cases k <;> rfl) k.opening_ne_quote
  | container k es => exact hother rfl (by cases k <;> rfl) k.opening_ne_quote

theorem opened_rest {t : Token} (h : t.Fits) :
    opened t.rest = t.member?.bind fun m => m.value.string?.map fun s => s ++ quote :: m.rest := by
  cases t with
  | key w w' m =>
      rw [opened, Token.rest, after_ws w (by decide), if_pos rfl, Option.bind_some]
      exact after_quote_value m.value w' m.rest
  | value s r =>
      have hr : after colon r = none := h
      rw [opened, Token.rest, hr]
      rfl

/-- The search of `extract_string`, over any strings of a text. -/
theorem findSome_opened {key : Bytes} {ts : List Token} (h : ∀ t ∈ ts, t.Fits) :
    ts.findSome? (Token.found key opened) =
      ((ts.filterMap Token.member?).find? fun m => StringMember key m).bind fun m =>
        m.value.string?.map fun s => s ++ quote :: m.rest := by
  induction ts with
  | nil => rfl
  | cons t ts ih =>
      rw [List.forall_mem_cons] at h
      rw [List.findSome?_cons, Token.found, opened_rest h.1, ih h.2]
      cases t with
      | value s r => simp [Token.member?]
      | key w w' m =>
          by_cases hhit : Hit key m.name
          · cases hs : m.value.string? with
            | none => simp [Token.member?, Token.text, StringMember, hhit, hs]
            | some s => simp [Token.member?, Token.text, StringMember, hhit, hs]
          · simp [Token.member?, Token.text, StringMember, hhit]

theorem Placed.unquoted_content {m : Placed} {s : Bytes} (hs : m.value.string? = some s) :
    unquoted (s ++ quote :: m.rest) = m.content := by
  rw [Placed.content, hs]
  cases hv : m.value with
  | string c =>
      rw [hv] at hs
      cases hs
      rw [unquoted, string_enclosed c.enclosed]
      rfl
  | literal l => rw [hv] at hs; cases hs
  | number n => rw [hv] at hs; cases hs
  | empty k w => rw [hv] at hs; cases hs
  | container k es => rw [hv] at hs; cases hs

/-- `extract_string` takes the first member that looks like the key, at any depth,
whose value is a string. -/
theorem stringOf_tokens {key l : Bytes} {ts : List Token} (hfit : ∀ t ∈ ts, t.Fits)
    (hsearch : Search.atQuotes (fun t => (keyed key t).bind opened) l =
      ts.findSome? (Token.found key opened)) :
    stringOf key l =
      ((ts.filterMap Token.member?).find? fun m => StringMember key m).bind Placed.content := by
  rw [stringOf, hsearch, findSome_opened hfit]
  cases hfind : (ts.filterMap Token.member?).find? fun m => StringMember key m with
  | none => rfl
  | some m =>
      have hm := List.find?_some hfind
      obtain ⟨s, hs⟩ := Option.isSome_iff_exists.mp (of_decide_eq_true hm).2
      rw [Option.bind_some, Option.bind_some, hs, Option.map_some, Option.bind_some,
        Placed.unquoted_content hs]

theorem ObjectText.stringOf_text (q : ObjectText) {key : Bytes} (hkey : Identifier key) :
    stringOf key q.text =
      (q.allMembers.find? fun m => StringMember key m).bind Placed.content :=
  stringOf_tokens q.fit (q.atQuotes hkey opened)

namespace ObjectText

/-- `extract_string` reads top-level members: it finds a string exactly when there
is one under the key, and returns the place of one of these. -/
def ReadsTopString (q : ObjectText) (key : Bytes) : Prop :=
  ∃ ok out, extractString q.text key = .ok (ok, out) ∧
    (ok = true ↔ ∃ m ∈ q.members, m.name = key ∧ m.content ≠ none) ∧
    (ok = true → ∃ m ∈ q.members, m.name = key ∧
      ∃ c, m.content = some c ∧ out = c.span q.text.length)

/-- The first member that looks like the key and has a string, at any depth, is a
top-level one with the very key. -/
def FirstStringAtTop (q : ObjectText) (key : Bytes) : Prop :=
  ∀ m, (q.allMembers.find? fun m => StringMember key m) = some m → m ∈ q.members ∧ m.name = key

theorem content_ne_none {m : Placed} : m.content ≠ none ↔ m.value.string?.isSome := by
  rw [Placed.content, Ne, Option.map_eq_none_iff, Option.isSome_iff_ne_none]

theorem content_of_find {ms : List Placed} {key : Bytes} {m : Placed}
    (h : (ms.find? fun m => StringMember key m) = some m) : m.content ≠ none := by
  have hm := List.find?_some h
  rw [decide_eq_true_eq] at hm
  exact content_ne_none.mpr hm.2

/-- The place of its content tells a member from all others. -/
theorem eq_of_content {q : ObjectText} {m m' : Placed} {c c' : Slice} (hm : m ∈ q.allMembers)
    (hm' : m' ∈ q.allMembers) (hc : m.content = some c) (hc' : m'.content = some c')
    (hspan : c.span q.text.length = c'.span q.text.length) : m = m' := by
  have hstart : ∀ {m : Placed} {c : Slice}, m.content = some c →
      c.start.length + 1 = m.start.length := by
    intro m c hc
    obtain ⟨s, hs, rfl⟩ := Option.map_eq_some_iff.mp hc
    cases hv : m.value with
    | string t =>
        rw [hv] at hs
        cases hs
        simp only [Placed.start, hv, Value.text, List.length_append, List.length_cons,
          List.length_nil]
        omega
    | literal l => rw [hv] at hs; cases hs
    | number n => rw [hv] at hs; cases hs
    | empty k w => rw [hv] at hs; cases hs
    | container k es => rw [hv] at hs; cases hs
  refine eq_of_start hm hm' ?_
  have hle := start_le hm
  have hle' := start_le hm'
  have h := hstart hc
  have h' := hstart hc'
  simp only [Slice.span, Span.mk.injEq, Option.some.injEq] at hspan
  omega

/-- A top-level member with the key and a string is one that the search stops at. -/
theorem find_of_top {q : ObjectText} {key : Bytes} {m : Placed} (hm : m ∈ q.members)
    (hname : m.name = key) (hc : m.content ≠ none) :
    ∃ m', (q.allMembers.find? fun m => StringMember key m) = some m' := by
  rw [← Option.isSome_iff_exists, List.find?_isSome]
  exact ⟨m, mem_allMembers hm, decide_eq_true ⟨.inl hname, content_ne_none.mp hc⟩⟩

theorem readsTopString_iff (q : ObjectText) {key : Bytes} (hkey : Identifier key) :
    q.ReadsTopString key ↔ q.FirstStringAtTop key := by
  have hrun := extractString_eq q.text key
  rw [q.stringOf_text hkey] at hrun
  constructor
  · rintro ⟨ok, out, hok, -, hout⟩ m hfind
    have hm := List.mem_of_find?_eq_some hfind
    obtain ⟨c, hc⟩ := Option.ne_none_iff_exists'.mp (content_of_find hfind)
    rw [hfind, Option.bind_some, hc, hok] at hrun
    cases hrun
    obtain ⟨m', hm', hname, c', hc', hspan⟩ := hout rfl
    obtain rfl := eq_of_content hm (mem_allMembers hm') hc hc' hspan
    exact ⟨hm', hname⟩
  · intro hfirst
    cases hfind : q.allMembers.find? fun m => StringMember key m with
    | none =>
        rw [hfind] at hrun
        refine ⟨false, {}, hrun, ?_, fun h => absurd h Bool.false_ne_true⟩
        constructor
        · intro h
          cases h
        · rintro ⟨m, hm, hname, hc⟩
          obtain ⟨m', hm'⟩ := find_of_top hm hname hc
          rw [hfind] at hm'
          cases hm'
    | some m =>
        obtain ⟨hm, hname⟩ := hfirst m hfind
        have hc := content_of_find hfind
        obtain ⟨c, hcontent⟩ := Option.ne_none_iff_exists'.mp hc
        rw [hfind, Option.bind_some, hcontent] at hrun
        exact ⟨true, _, hrun, ⟨fun _ => ⟨m, hm, hname, hc⟩, fun _ => rfl⟩,
          fun _ => ⟨m, hm, hname, c, hcontent, rfl⟩⟩

/-- `"name"` and `"auth_token"` are read from the top level exactly under that
condition on the first member that looks like one of them. -/
theorem extractString_top_iff (q : ObjectText) :
    (q.ReadsTopString (ascii "name") ↔ q.FirstStringAtTop (ascii "name")) ∧
      (q.ReadsTopString (ascii "auth_token") ↔ q.FirstStringAtTop (ascii "auth_token")) :=
  ⟨q.readsTopString_iff ⟨by decide, by decide⟩, q.readsTopString_iff ⟨by decide, by decide⟩⟩

theorem plain_name : (ascii "name").all isStrChar := by decide

theorem plain_arguments : (ascii "arguments").all isStrChar := by decide

/-- The name of a tool, behind arguments that have a name themselves. -/
def nestedName : ObjectText :=
  let key (s : Bytes) (h : s.all isStrChar) : Label .object := .key (.plain s h) .none .none
  let name (s : Bytes) (h : s.all isStrChar) : Entries .object :=
    .last .none (key (ascii "name") plain_name) (.string (.plain s h)) .none
  ⟨.none, .container .object (.more .none (key (ascii "arguments") plain_arguments)
    (.container .object (name (ascii "evil") (by decide))) .none
    (name (ascii "good") (by decide))), .none, rfl⟩

theorem extractString_takes_nested :
    nestedName.text = ascii "\x7b\"arguments\":\x7b\"name\":\"evil\"\x7d,\"name\":\"good\"\x7d" ∧
      extractString nestedName.text (ascii "name") = .ok (true, ⟨some 22, 4⟩) ∧
      ¬ nestedName.ReadsTopString (ascii "name") := by
  have hrun : extractString nestedName.text (ascii "name") = .ok (true, ⟨some 22, 4⟩) := by
    decide +kernel
  refine ⟨by decide +kernel, hrun, ?_⟩
  rintro ⟨ok, out, hok, -, hout⟩
  rw [hrun] at hok
  cases hok
  obtain ⟨m, hm, hname, c, hc, hspan⟩ := hout rfl
  rcases List.mem_cons.mp hm with rfl | hm
  · exact absurd hname (by decide +kernel)
  · rw [List.mem_singleton.mp hm] at hc
    cases hc
    exact absurd hspan (by decide +kernel)

end ObjectText

end McpToolkit
