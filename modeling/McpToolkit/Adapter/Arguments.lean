import McpToolkit.Adapter.Params
/-!
# The value under a key

`extract_value_span` on the text of an object.  It looks at the first string that
looks like the key, be it a key or a value, at any depth, and delimits what
follows a colon there.  What it returns is the value of a top-level member under a
condition on that string, which is also necessary.
-/

namespace McpToolkit

open Scan Search MCPAdapter

/-! ## Delimiting a value -/

theorem containerRest_enclosed (o c : UInt8) (d : Nat) {s : Bytes} (hs : Enclosed s) (r : Bytes) :
    containerRest o c .string d (s ++ quote :: r) = containerRest o c .code d r := by
  induction s using string.induct with
  | case1 => rfl
  | case2 t => exact absurd rfl hs.quotes.head_ne
  | case3 => cases hs.ends
  | case4 e t hq ih => exact ih hs.of_escape
  | case5 b t hq hb ih =>
      have hcons : containerRest o c .string d ((b :: t) ++ quote :: r) =
          containerRest o c (Mode.string.next b) d (t ++ quote :: r) := rfl
      rw [hcons, Mode.next_string hq hb, ih (hs.of_cons hq hb)]

/-- The container loop of `extract_value_span` has no limit. -/
theorem containerRest_countsKind (k : Kind) (limit : Nat) :
    CountsKind k limit (containerRest k.opening k.closing .code) where
  skip t hq ho hc := by
    rw [containerRest, if_neg hq, if_neg ho, if_neg hc]
  str s r := by
    rw [containerRest, if_pos rfl, containerRest_enclosed _ _ _ s.enclosed]
  opening t hd := by
    rw [containerRest, if_neg k.opening_ne_quote, if_pos rfl]
  closing t hd := by
    rw [containerRest, if_neg k.closing_ne_quote, if_neg (k.closing_ne_opening k), if_pos rfl,
      if_neg (by omega)]

theorem containerRest_opening (k : Kind) (t : Bytes) :
    containerRest k.opening k.closing .code 0 (k.opening :: t) =
      containerRest k.opening k.closing .code 1 t := by
  rw [containerRest, if_neg k.opening_ne_quote, if_pos rfl]

theorem containerRest_closing (k : Kind) (r : Bytes) :
    containerRest k.opening k.closing .code 1 (k.closing :: r) = r := by
  rw [containerRest, if_neg k.closing_ne_quote, if_neg (k.closing_ne_opening k), if_pos rfl,
    if_pos rfl]

theorem valueRest_opening (k : Kind) (t : Bytes) :
    valueRest (k.opening :: t) = containerRest k.opening k.closing .code 1 t := by
  rw [← containerRest_opening]
  cases k <;> rfl

/-- What `extract_value_span` leaves behind a value: it stops a scalar at the next
comma or closing bracket only. -/
def Placed.leaves (m : Placed) : Bytes :=
  if m.value.isScalar then m.rest.dropWhile isBlank else m.rest

theorem scalarRest_scalar {v : Value} (hv : v.isScalar) (w : Ws) {b : UInt8}
    (hb : b = comma ∨ b = rbrace) (r : Bytes) :
    scalarRest (v.text ++ (w.text ++ b :: r)) = b :: r := by
  have hgo : ∀ x ∈ v.text ++ w.text,
      (decide (x ≠ comma) && decide (x ≠ rbrace) && decide (x ≠ rbracket)) = true := by
    have hne : ∀ x, isScalarChar x ∨ isBlank x → x ≠ comma ∧ x ≠ rbrace ∧ x ≠ rbracket := by
      intro x hx
      refine ⟨?_, ?_, ?_⟩ <;> rintro rfl <;> exact absurd hx (by decide)
    intro x hx
    have hchar : isScalarChar x ∨ isBlank x :=
      (List.mem_append.mp hx).imp (v.scalar_chars hv x) (w.blank x)
    simp [hne x hchar]
  have hstop : (decide (b ≠ comma) && decide (b ≠ rbrace) && decide (b ≠ rbracket)) = false := by
    rcases hb with rfl | rfl <;> rfl
  rw [← List.append_assoc, scalarRest, List.dropWhile_append_of_pos hgo,
    List.dropWhile_cons_of_neg (by rw [hstop]; exact Bool.false_ne_true)]

theorem valueRest_scalar {v : Value} (hv : v.isScalar) (r : Bytes) :
    valueRest (v.text ++ r) = scalarRest (v.text ++ r) := by
  obtain ⟨b, t, ht, hb⟩ := v.scalar_cons hv
  rw [ht, List.cons_append, valueRest, if_neg (ne_of_isScalarChar hb (by decide)),
    if_neg (ne_of_isScalarChar hb (by decide)), if_neg (ne_of_isScalarChar hb (by decide))]

theorem valueRest_start {m : Placed} {w w' : Ws} (h : (Token.key w w' m).Fits) :
    valueRest m.start = m.leaves := by
  obtain ⟨name, v, rest⟩ := m
  obtain ⟨ws, b, t, hrest, hb⟩ := h
  have hblank : isBlank b = false := by
    rcases hb with rfl | rfl <;> rfl
  have hscalar : v.isScalar → valueRest (v.text ++ rest) = rest.dropWhile isBlank := fun hv => by
    obtain rfl : rest = ws.text ++ b :: t := hrest
    rw [valueRest_scalar hv, scalarRest_scalar hv ws hb, ws.dropWhile hblank]
  cases v with
  | literal l => exact hscalar rfl
  | number n => exact hscalar rfl
  | string s =>
      have htext : (Value.string s).text ++ rest = quote :: (s.text ++ quote :: rest) := by
        simp [Value.text]
      have hstring := string_enclosed s.enclosed rest
      rw [Placed.start, htext, valueRest, if_neg (by decide), if_neg (by decide), if_pos rfl,
        hstring]
      rfl
  | empty k w₁ =>
      have htext : (Value.empty k w₁).text ++ rest =
          k.opening :: (w₁.text ++ k.closing :: rest) := by
        simp [Value.text]
      rw [Placed.start, htext, valueRest_opening,
        (containerRest_countsKind k 1).plain w₁.plain, containerRest_closing]
      rfl
  | container k es =>
      have htext : (Value.container k es).text ++ rest =
          k.opening :: (es.text ++ k.closing :: rest) := by
        simp [Value.text]
      rw [Placed.start, htext, valueRest_opening,
        (containerRest_countsKind k (1 + es.depth)).entries es 1 _ le_rfl le_rfl,
        containerRest_closing]
      rfl

/-- The value that `extract_value_span` delimits behind a string that looks like the
key. -/
def Token.delimits : Token → Option Slice
  | .key _ _ m => some ⟨m.start, m.leaves⟩
  | .value _ _ => none

theorem Value.start_cons (v : Value) (r : Bytes) :
    ∃ b t, v.text ++ r = b :: t ∧ isBlank b = false := by
  cases v with
  | literal l => cases l <;> exact ⟨_, _, rfl, rfl⟩
  | number n =>
      obtain ⟨b, t, ht, hb⟩ := (Value.number n).scalar_cons rfl
      exact ⟨b, t ++ r, by rw [ht]; rfl, isBlank_of_isScalarChar hb⟩
  | string s => exact ⟨_, _, rfl, rfl⟩
  | empty k w => exact ⟨_, _, rfl, by cases k <;> rfl⟩
  | container k es => exact ⟨_, _, rfl, by cases k <;> rfl⟩

theorem delimited_rest {t : Token} (h : t.Fits) :
    (after colon t.rest).bind delimited = t.delimits := by
  cases t with
  | value s r =>
      have hr : after colon r = none := h
      rw [Token.rest, hr]
      rfl
  | key w w' m =>
      obtain ⟨b, t, hstart, hb⟩ := m.value.start_cons m.rest
      have hvalue := valueRest_start h
      change m.start = b :: t at hstart
      rw [hstart] at hvalue
      rw [Token.rest, after_ws w (by decide), if_pos rfl, Option.bind_some, hstart, delimited,
        w'.dropWhile hb, Token.delimits, hstart]
      dsimp only
      rw [hvalue]

theorem findSome_some (key : Bytes) (ts : List Token) :
    ts.findSome? (Token.found key some) = (ts.find? fun t => Hit key t.text).map Token.rest := by
  induction ts with
  | nil => rfl
  | cons t ts ih =>
      rw [List.findSome?_cons, Token.found, ih]
      by_cases hhit : Hit key t.text <;> simp [hhit]

/-- `extract_value_span` delimits what follows the first string that looks like the
key. -/
theorem valueOf_tokens {key l : Bytes} {ts : List Token} (hfit : ∀ t ∈ ts, t.Fits)
    (hsearch : Search.atQuotes (fun t => (keyed key t).bind some) l =
      ts.findSome? (Token.found key some)) :
    valueOf key l = (ts.find? fun t => Hit key t.text).bind Token.delimits := by
  simp only [Option.bind_fun_some] at hsearch
  rw [valueOf, hsearch, findSome_some]
  cases hfind : ts.find? fun t => Hit key t.text with
  | none => rfl
  | some t => exact delimited_rest (hfit t (List.mem_of_find?_eq_some hfind))

namespace ObjectText

/-- The first string that looks like the key, be it a key or a value. -/
def firstUse (q : ObjectText) (key : Bytes) : Option Token :=
  q.strings.find? fun t => Hit key t.text

theorem valueOf_text (q : ObjectText) {key : Bytes} (hkey : Identifier key) :
    valueOf key q.text = (q.firstUse key).bind Token.delimits :=
  valueOf_tokens q.fit (q.atQuotes hkey some)

/-- `extract_value_span` reads top-level members: it finds a value exactly when there
is a member with the key, and returns the place of the value of such a one. -/
def ReadsTopValue (q : ObjectText) (key : Bytes) (out : Span) : Prop :=
  ∃ ok span, extractValueSpan q.text key out = .ok (ok, span) ∧
    (ok = true ↔ ∃ m ∈ q.members, m.name = key) ∧
    (ok = true → ∃ m ∈ q.members, m.name = key ∧ span = m.slice.span q.text.length)

/-- The first string that looks like the key is the key of a top-level member, whose
value is no scalar with white space behind it; or it is a value and there is no
such member; or there is no such string. -/
def FirstUseAtTop (q : ObjectText) (key : Bytes) : Prop :=
  match q.firstUse key with
  | none => True
  | some (.key _ _ m) => m ∈ q.members ∧ m.name = key ∧
      (m.value.isScalar → startsWith isBlank m.rest = false)
  | some (.value _ _) => ∀ m ∈ q.members, m.name ≠ key

theorem exists_key_of_mem {q : ObjectText} {m : Placed} (hm : m ∈ q.members) :
    ∃ w w', Token.key w w' m ∈ q.strings := by
  obtain ⟨t, ht, hmember⟩ := List.mem_filterMap.mp (mem_allMembers hm)
  cases t with
  | key w w' m' =>
      cases hmember
      exact ⟨w, w', ht⟩
  | value s r => cases hmember

theorem mem_allMembers_of_key {q : ObjectText} {w w' : Ws} {m : Placed}
    (h : Token.key w w' m ∈ q.strings) : m ∈ q.allMembers :=
  List.mem_filterMap.mpr ⟨_, h, rfl⟩

theorem dropWhile_eq_self_iff {l : Bytes} :
    (l.dropWhile isBlank).length = l.length ↔ startsWith isBlank l = false := by
  cases l with
  | nil => simp [startsWith]
  | cons b t =>
      rw [startsWith]
      by_cases hb : isBlank b
      · have := (List.dropWhile_suffix (l := t) isBlank).length_le
        rw [List.dropWhile_cons_of_pos hb, List.length_cons, hb]
        simp only [Bool.true_eq_false, iff_false]
        omega
      · rw [List.dropWhile_cons_of_neg hb]
        simpa using hb

theorem slice_eq_of_leaves {m : Placed} (h : m.value.isScalar → startsWith isBlank m.rest = false) :
    (⟨m.start, m.leaves⟩ : Slice) = m.slice := by
  rw [Placed.leaves, Placed.slice]
  split_ifs with hv
  · have hlen := dropWhile_eq_self_iff.mpr (h hv)
    rw [(List.dropWhile_suffix isBlank).eq_of_length hlen]
  · rfl

theorem readsTopValue_iff (q : ObjectText) {key : Bytes} (hkey : Identifier key) (out : Span) :
    q.ReadsTopValue key out ↔ q.FirstUseAtTop key := by
  have hrun := extractValueSpan_eq q.noDangling key out
  rw [q.valueOf_text hkey] at hrun
  unfold FirstUseAtTop
  cases hfind : q.firstUse key with
  | none =>
      rw [hfind] at hrun
      have hnone : ¬ ∃ m ∈ q.members, m.name = key := by
        rintro ⟨m, hm, hname⟩
        obtain ⟨w, w', ht⟩ := exists_key_of_mem hm
        have := List.find?_eq_none.mp hfind _ ht
        exact this (decide_eq_true (.inl hname))
      refine iff_of_true ⟨false, out, hrun, ?_, fun h => absurd h Bool.false_ne_true⟩ trivial
      exact iff_of_false Bool.false_ne_true hnone
  | some t =>
      have ht := List.mem_of_find?_eq_some hfind
      rw [hfind, Option.bind_some] at hrun
      cases t with
      | value s r =>
          dsimp only
          constructor
          · rintro ⟨ok, span, hok, hiff, -⟩ m hm hname
            rw [hok] at hrun
            cases hrun
            exact absurd (hiff.mpr ⟨m, hm, hname⟩) Bool.false_ne_true
          · intro hnone
            refine ⟨false, out, hrun, iff_of_false Bool.false_ne_true ?_,
              fun h => absurd h Bool.false_ne_true⟩
            rintro ⟨m, hm, hname⟩
            exact hnone m hm hname
      | key w w' m =>
          have hall := mem_allMembers_of_key ht
          dsimp only
          constructor
          · rintro ⟨ok, span, hok, -, hspan⟩
            rw [hok] at hrun
            cases hrun
            obtain ⟨m', hm', hname, heq⟩ := hspan rfl
            have hle := start_le hall
            have hle' := start_le (mem_allMembers hm')
            simp only [Slice.span, Placed.slice, Span.mk.injEq, Option.some.injEq] at heq
            obtain rfl : m = m' := eq_of_start hall (mem_allMembers hm') (by omega)
            refine ⟨hm', hname, fun hv => dropWhile_eq_self_iff.mp ?_⟩
            have hleaves : m.leaves = m.rest.dropWhile isBlank := if_pos hv
            have hdrop := (List.dropWhile_suffix (l := m.rest) isBlank).length_le
            have hrest : m.rest.length ≤ m.start.length := by
              rw [Placed.start, List.length_append]
              omega
            rw [hleaves] at heq
            omega
          · rintro ⟨hm, hname, hscalar⟩
            rw [Token.delimits, slice_eq_of_leaves hscalar] at hrun
            exact ⟨true, _, hrun, iff_of_true rfl ⟨m, hm, hname⟩, fun _ => ⟨m, hm, hname, rfl⟩⟩

/-- `"arguments"` is read from the top level exactly under that condition on the
first string that looks like it. -/
theorem extractValueSpan_top_iff (q : ObjectText) (out : Span) :
    q.ReadsTopValue (ascii "arguments") out ↔ q.FirstUseAtTop (ascii "arguments") :=
  q.readsTopValue_iff ⟨by decide, by decide⟩ out

/-- A tool by the name of `arguments`, and its arguments. -/
def argumentsTool : ObjectText :=
  let key (s : Bytes) (h : s.all isStrChar) : Label .object := .key (.plain s h) .none .none
  ⟨.none, .container .object (.more .none (key (ascii "name") plain_name)
    (.string (.plain (ascii "arguments") plain_arguments)) .none
    (.last .none (key (ascii "arguments") plain_arguments) (.empty .object .none) .none)),
    .none, rfl⟩

theorem extractValueSpan_gives_up :
    argumentsTool.text = ascii "\x7b\"name\":\"arguments\",\"arguments\":\x7b\x7d\x7d" ∧
      extractValueSpan argumentsTool.text (ascii "arguments") {} = .ok (false, {}) ∧
      ¬ argumentsTool.ReadsTopValue (ascii "arguments") {} := by
  have hrun : extractValueSpan argumentsTool.text (ascii "arguments") {} = .ok (false, {}) := by
    decide +kernel
  refine ⟨by decide +kernel, hrun, ?_⟩
  rintro ⟨ok, span, hok, hiff, -⟩
  rw [hrun] at hok
  cases hok
  have hmem : (⟨ascii "arguments", .empty .object .none, [rbrace]⟩ : Placed) ∈
      argumentsTool.members := List.mem_cons_of_mem _ (List.mem_singleton.mpr rfl)
  exact Bool.false_ne_true (hiff.mpr ⟨_, hmem, rfl⟩)

end ObjectText

end McpToolkit
