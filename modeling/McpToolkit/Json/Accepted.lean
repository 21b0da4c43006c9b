import McpToolkit.Json.Integers
import McpToolkit.Json.View
/-!
# What an accepted text says

The depth limit counts the brackets of one kind only, so that a value beyond it may
still be skipped.  But a value that is skipped is skipped as a whole.  So a message that
is accepted shows the content of its object, however deep the values are.
-/

namespace McpToolkit

open JsonParser Scan

/-! ## Values of any depth -/

namespace CountsKind

variable {k : Kind} {limit : Nat} {β : Type} {f : Nat → Bytes → Option β}

/-- A container inside the container, of either kind, if the scanner gets past it. -/
theorem inner_of_some (hf : CountsKind k limit f)
    (hlimit : ∀ {d} t, limit < d + 1 → f d (k.opening :: t) = none) (j : Kind) {d : Nat}
    {w r : Bytes} {x : β} (hd : 1 ≤ d)
    (hw : ∀ d', 1 ≤ d' → f d' (w ++ j.closing :: r) = some x → f d' (j.closing :: r) = some x)
    (h : f d (j.opening :: (w ++ j.closing :: r)) = some x) : f d r = some x := by
  by_cases hjk : j = k
  · subst hjk
    by_cases hmax : d + 1 ≤ limit
    · rw [hf.opening _ hmax] at h
      have hclosed := hw (d + 1) (by omega) h
      rwa [hf.closing _ (by omega), Nat.add_sub_cancel] at hclosed
    · rw [hlimit _ (by omega)] at h
      cases h
  · rw [hf.skip _ j.opening_ne_quote (fun h => hjk (j.opening_inj h))
      (fun h => k.closing_ne_opening j h.symm)] at h
    have hclosed := hw d hd h
    rwa [hf.skip _ j.closing_ne_quote (j.closing_ne_opening k)
      (fun h => hjk (j.closing_inj h))] at hclosed

/-- An entry, given its value. -/
theorem entry_of_some (hf : CountsKind k limit f) {d : Nat} {j : Kind} (w w' : Ws) (l : Label j)
    {v : Value} {x : β} (hv : ∀ r, f d (v.text ++ r) = some x → f d r = some x) (r : Bytes)
    (h : f d (w.text ++ l.text ++ v.text ++ w'.text ++ r) = some x) : f d r = some x := by
  simp only [List.append_assoc] at h
  rw [hf.plain w.plain, hf.label] at h
  have hrest := hv _ h
  rwa [hf.plain w'.plain] at hrest

mutual

/-- A container scanner that gets past a value has stepped over it. -/
theorem value_of_some (hf : CountsKind k limit f)
    (hlimit : ∀ {d} t, limit < d + 1 → f d (k.opening :: t) = none) :
    ∀ (v : Value) (d : Nat) (r : Bytes) {x : β}, 1 ≤ d → f d (v.text ++ r) = some x → f d r = some x
  | .literal l, d, r, x, _, h => by
      rwa [Value.text, hf.plain l.plain] at h
  | .number n, d, r, x, _, h => by
      rwa [Value.text, hf.plain n.plain] at h
  | .string s, d, r, x, _, h => by
      have htext : (Value.string s).text ++ r = quote :: (s.text ++ quote :: r) := by
        simp [Value.text]
      rwa [htext, hf.str] at h
  | .empty j w, d, r, x, hd, h => by
      have htext : (Value.empty j w).text ++ r = j.opening :: (w.text ++ j.closing :: r) := by
        simp [Value.text]
      rw [htext] at h
      refine hf.inner_of_some hlimit j hd (fun d' _ hw => ?_) h
      rwa [hf.plain w.plain] at hw
  | .container j es, d, r, x, hd, h => by
      have htext : (Value.container j es).text ++ r = j.opening :: (es.text ++ j.closing :: r) := by
        simp [Value.text]
      rw [htext] at h
      exact hf.inner_of_some hlimit j hd (fun d' hd' => hf.entries_of_some hlimit es d' _ hd') h

theorem entries_of_some (hf : CountsKind k limit f)
    (hlimit : ∀ {d} t, limit < d + 1 → f d (k.opening :: t) = none) :
    ∀ {j : Kind} (es : Entries j) (d : Nat) (r : Bytes) {x : β}, 1 ≤ d →
      f d (es.text ++ r) = some x → f d r = some x
  | _, .last w l v w', d, r, x, hd, h =>
      hf.entry_of_some w w' l (fun r => hf.value_of_some hlimit v d r hd) r h
  | _, .more w l v w' es, d, r, x, hd, h => by
      have hcomma : Plain comma := by decide
      rw [Entries.text, List.append_assoc _ (comma :: es.text) r] at h
      have hrest := hf.entry_of_some w w' l (fun r => hf.value_of_some hlimit v d r hd) _ h
      rw [List.cons_append,
        hf.skip _ hcomma.1 (hcomma.ne_opening k) (hcomma.ne_closing k)] at hrest
      exact hf.entries_of_some hlimit es d r hd hrest

end

end CountsKind

theorem container_limit (k : Kind) {d : Nat} (t : Bytes) (hd : kMaxDepth < d + 1) :
    container k.opening k.closing .code d (k.opening :: t) = none := by
  rw [container_code_cons _ _ _ k.opening_ne_quote, if_pos rfl, if_pos hd]

theorem container_closing (k : Kind) (r : Bytes) :
    container k.opening k.closing .code 1 (k.closing :: r) = some r := by
  rw [container_code_cons _ _ _ k.closing_ne_quote, if_neg (k.closing_ne_opening k), if_pos rfl,
    if_pos rfl]

/-- A value that is skipped is skipped as a whole. -/
theorem value_text_of_some (v : Value) {r l : Bytes} (hr : EndsNumber r)
    (h : value (v.text ++ r) = some l) : l = r := by
  cases v with
  | literal l => cases l <;> exact (Option.some.inj h).symm
  | number n =>
      rw [Value.text, value_number n hr] at h
      exact (Option.some.inj h).symm
  | string s =>
      have hstring := string_enclosed s.enclosed r
      have htext : (Value.string s).text ++ r = quote :: (s.text ++ quote :: r) := by
        simp [Value.text]
      rw [htext, value, if_pos rfl, hstring] at h
      exact (Option.some.inj h).symm
  | empty k w =>
      have htext : (Value.empty k w).text ++ r = k.opening :: (w.text ++ k.closing :: r) := by
        simp [Value.text]
      rw [htext, value_opening, (container_countsKind k).plain w.plain, container_closing] at h
      exact (Option.some.inj h).symm
  | container k es =>
      have htext : (Value.container k es).text ++ r = k.opening :: (es.text ++ k.closing :: r) := by
        simp [Value.text]
      rw [htext, value_opening] at h
      have hclosed :=
        (container_countsKind k).entries_of_some (container_limit k) es 1 _ le_rfl h
      rw [container_closing] at hclosed
      exact (Option.some.inj hclosed).symm

theorem skipped_text_of_some (w : Ws) (v : Value) {r : Bytes} {s : Slice} (hr : EndsNumber r)
    (h : skipped (w.text ++ (v.text ++ r)) = some s) : s = ⟨v.text ++ r, r⟩ := by
  rw [skipped, w.blanks_solid (v.solid r), Option.map_eq_some_iff] at h
  obtain ⟨l, hl, rfl⟩ := h
  rw [value_text_of_some v hr hl]

/-! ## Integers and strings -/

theorem ne_of_numberStart {b c : UInt8} (hb : (b = minus || isdigit b) = true)
    (hc : (c = minus || isdigit c) = false) : b ≠ c := by
  rintro rfl
  rw [hc] at hb
  cases hb

theorem content_of_some (w : Ws) (v : Value) {r l : Bytes} {s : Slice}
    (h : content (w.text ++ (v.text ++ r)) = some (s, l)) :
    ∃ t, v.string? = some t ∧ s = ⟨t ++ quote :: r, quote :: r⟩ ∧ l = r := by
  have hfound : ∀ {t}, v.string? = some t → s = ⟨t ++ quote :: r, quote :: r⟩ ∧ l = r := by
    intro t ht
    rw [content_text w ht] at h
    cases h
    exact ⟨rfl, rfl⟩
  rw [content, w.blanks_solid (v.solid r)] at h
  cases v with
  | string t => exact ⟨t.text, rfl, hfound rfl⟩
  | literal l => cases l <;> cases h
  | number n =>
      obtain ⟨b, t, htext, hb⟩ := n.eq_cons
      rw [Value.text, htext, List.cons_append] at h
      dsimp only at h
      rw [if_neg (ne_of_numberStart hb (by decide))] at h
      cases h
  | empty k w => cases k <;> cases h
  | container k es => cases k <;> cases h

/-- What stands behind the digits of a number. -/
def Number.rest (n : Number) (r : Bytes) : Bytes := n.fracText ++ (n.expText ++ r)

theorem Number.rest_ends (n : Number) {r : Bytes} (hr : EndsNumber r) :
    startsWith isdigit (n.rest r) = false := by
  unfold Number.rest Number.fracText Number.expText
  cases n.frac with
  | some d => rfl
  | none =>
      cases n.exp with
      | none => exact hr.digit
      | some e =>
          have hletter : isdigit e.letter = false := by
            rcases e.isLetter with h | h <;> rw [h] <;> decide
          exact hletter

theorem separator_none {b : UInt8} (hspace : isspace b = false) (hcomma : b ≠ comma)
    (hbrace : b ≠ rbrace) (t : Bytes) : separator (b :: t) = none := by
  have hsolid : Solid (b :: t) := hspace
  rw [separator, hsolid.blanks]
  dsimp only
  rw [if_neg hcomma, if_neg hbrace]

/-- A separator follows the digits only of an integer literal. -/
theorem Number.toInt?_of_separator (n : Number) {r l : Bytes}
    (h : separator (n.rest r) = some l) : n.rest r = r ∧ n.toInt? =
      some (if n.negative then -(natFrom 0 n.int.text : Int)
        else (natFrom 0 n.int.text : Int)) := by
  rw [Number.rest, Number.fracText, Number.expText] at h ⊢
  cases hfrac : n.frac with
  | some d =>
      rw [hfrac, List.cons_append, separator_none (by decide) (by decide) (by decide)] at h
      cases h
  | none =>
      rw [hfrac, List.nil_append] at h
      cases hexp : n.exp with
      | some e =>
          have hletter : isspace e.letter = false ∧ e.letter ≠ comma ∧ e.letter ≠ rbrace := by
            rcases e.isLetter with h | h <;> rw [h] <;> decide
          have htext : e.text ++ r = e.letter :: (e.sign.toList ++ e.digits.text ++ r) := rfl
          rw [hexp] at h
          dsimp only at h
          rw [htext, separator_none hletter.1 hletter.2.1 hletter.2.2] at h
          cases h
      | none =>
          rw [Number.toInt?, hfrac, hexp, if_pos ⟨rfl, rfl⟩]
          exact ⟨rfl, rfl⟩

/-- An integer that is read and followed by a separator is an integer literal. -/
theorem int_of_some (w : Ws) (v : Value) {r l l' : Bytes} {k : Int} (hr : EndsNumber r)
    (h : int (w.text ++ (v.text ++ r)) = some (k, l)) (hsep : separator l = some l') :
    v.int? = some k ∧ l = r := by
  cases v with
  | number n =>
      let t : IntegerText := ⟨w.text, fun b hb => isspace_of_isBlank (w.blank b hb), n.negative,
        n.int, n.rest r, n.rest_ends hr⟩
      have htext : w.text ++ ((Value.number n).text ++ r) = t.text := by
        simp [t, IntegerText.text, IntegerText.sign, Value.text, Number.text, Number.rest]
      rw [htext, t.int_text] at h
      split_ifs at h
      cases h
      obtain ⟨hrest, hint⟩ := n.toInt?_of_separator hsep
      refine ⟨?_, hrest⟩
      rw [Value.int?, hint, natFrom_eq_ofDigits]
      rfl
  | literal x =>
      rw [int, w.blanks_solid (Value.solid _ r)] at h
      cases x <;> cases h
  | string s =>
      rw [int, w.blanks_solid (Value.solid _ r)] at h
      cases h
  | empty j w' =>
      rw [int, w.blanks_solid (Value.solid _ r)] at h
      cases j <;> cases h
  | container j es =>
      rw [int, w.blanks_solid (Value.solid _ r)] at h
      cases j <;> cases h

/-! ## Members -/

section members

variable {μ : Type} {read : Bytes → Bytes → Option (μ × Bytes)}
variable {Matches : Bytes × Value → μ → Prop}

/-- What a reader of members finds in front of a separator is what stands in the grammar. -/
def Yields (read : Bytes → Bytes → Option (μ × Bytes)) (Matches : Bytes × Value → μ → Prop)
    (m : Bytes × Value) : Prop :=
  ∀ (w : Ws) {r l l' : Bytes} {x : μ}, EndsNumber r →
    read m.1 (w.text ++ (m.2.text ++ r)) = some (x, l) → separator l = some l' →
    Matches m x ∧ l = r

theorem member_yields {s : Str} {v : Value} (h : Yields read Matches (s.text, v))
    (w w₁ w₂ w₃ : Ws) {b : UInt8} (hb : b = comma ∨ b = rbrace) {r l : Bytes} {x : μ}
    (hx : member read (w.text ++ (Label.key s w₁ w₂).text ++ v.text ++ w₃.text ++ b :: r) =
      some (x, l)) : Matches (s.text, v) x ∧ l = if b = comma then r else b :: r := by
  have htext : w.text ++ (Label.key s w₁ w₂).text ++ v.text ++ w₃.text ++ b :: r =
      w.text ++ quote :: (s.text ++ quote ::
        (w₁.text ++ colon :: (w₂.text ++ (v.text ++ (w₃.text ++ b :: r))))) := by
    simp [Label.text]
  rw [htext] at hx
  obtain ⟨key, l₁, l₂, l₃, hkey, hcolon, hread, hsep⟩ := member_eq_some.mp hx
  rw [content_str] at hkey
  cases hkey
  rw [symbol_ws w₁ rfl] at hcolon
  cases hcolon
  rw [Slice.text_append] at hread
  obtain ⟨hmatch, rfl⟩ := h w₂
    (EndsNumber.of_separator w₃ (hb.imp_right fun h => ⟨.object, h⟩) r) hread hsep
  refine ⟨hmatch, ?_⟩
  rcases hb with rfl | rfl
  · rw [separator_comma] at hsep
    exact (Option.some.inj hsep).symm
  · rw [separator_rbrace] at hsep
    exact (Option.some.inj hsep).symm

theorem symbol_rbrace_entry (w : Ws) (s : Str) (w₁ w₂ : Ws) (t : Bytes) :
    symbol rbrace (w.text ++ (Label.key s w₁ w₂).text ++ t) = none := by
  have htext : w.text ++ (Label.key s w₁ w₂).text ++ t =
      w.text ++ quote :: (s.text ++ quote :: (w₁.text ++ colon :: (w₂.text ++ t))) := by
    simp [Label.text]
  have hcontent := content_str w s (w₁.text ++ colon :: (w₂.text ++ t))
  rw [htext]
  exact symbol_rbrace_of_content hcontent

theorem members_yield_close (w : Ws) {n : Nat} {r l : Bytes} {ms : List μ}
    (h : membersWithin read n (w.text ++ rbrace :: r) = some (ms, l)) : ms = [] ∧ l = r := by
  have hclose : symbol rbrace (w.text ++ rbrace :: r) = some r := symbol_ws w rfl r
  cases n with
  | zero => cases h
  | succ n =>
      rcases membersWithin_succ h with ⟨rfl, hl⟩ | ⟨x, l', ms', hx, -⟩
      · rw [hclose] at hl
        exact ⟨rfl, (Option.some.inj hl).symm⟩
      · rw [symbol_rbrace_of_member hx] at hclose
        cases hclose

/-- The first of some members, and how reading goes on. -/
theorem members_yield_entry {s : Str} {v : Value} (h : Yields read Matches (s.text, v))
    (w w₁ w₂ w₃ : Ws) {b : UInt8} (hb : b = comma ∨ b = rbrace) {n : Nat} {r l : Bytes}
    {ms : List μ}
    (hms : membersWithin read n
      (w.text ++ (Label.key s w₁ w₂).text ++ v.text ++ w₃.text ++ b :: r) = some (ms, l)) :
    ∃ k x ms', ms = x :: ms' ∧ Matches (s.text, v) x ∧
      membersWithin read k (if b = comma then r else b :: r) = some (ms', l) := by
  cases n with
  | zero => cases hms
  | succ n =>
      rcases membersWithin_succ hms with ⟨-, hl⟩ | ⟨x, l', ms', hx, hms', rfl⟩
      · have hentry := symbol_rbrace_entry w s w₁ w₂ (v.text ++ (w₃.text ++ b :: r))
        rw [List.append_assoc _ w₃.text, List.append_assoc _ v.text, hentry] at hl
        cases hl
      · obtain ⟨hmatch, rfl⟩ := member_yields h w w₁ w₂ w₃ hb hx
        exact ⟨n, x, ms', rfl, hmatch, hms'⟩

theorem Entries.members_yield : ∀ (es : Entries .object),
    (∀ m ∈ es.members, Yields read Matches m) → ∀ {n : Nat} {r l : Bytes} {ms : List μ},
      membersWithin read n (es.text ++ rbrace :: r) = some (ms, l) →
        List.Forall₂ Matches es.members ms ∧ l = r
  | .last w (.key s w₁ w₂) v w₃, h, n, r, l, ms, hms => by
      obtain ⟨k, x, ms', rfl, hmatch, hrest⟩ :=
        members_yield_entry (h _ (List.mem_singleton_self _)) w w₁ w₂ w₃ (.inr rfl) hms
      obtain ⟨rfl, rfl⟩ := members_yield_close .none hrest
      exact ⟨.cons hmatch .nil, rfl⟩
  | .more w (.key s w₁ w₂) v w₃ es, h, n, r, l, ms, hms => by
      rw [Entries.members, List.forall_mem_cons] at h
      rw [Entries.text, List.append_assoc _ (comma :: es.text), List.cons_append] at hms
      obtain ⟨k, x, ms', rfl, hmatch, hrest⟩ :=
        members_yield_entry h.1 w w₁ w₂ w₃ (.inl rfl) hms
      obtain ⟨hmatches, rfl⟩ := Entries.members_yield es h.2 hrest
      exact ⟨.cons hmatch hmatches, rfl⟩

/-- Nothing but an object begins like one. -/
theorem symbol_lbrace_value (w : Ws) {v : Value} (h : v.isObject = false) (r : Bytes) :
    symbol lbrace (w.text ++ (v.text ++ r)) = none := by
  rw [symbol, w.blanks_solid (v.solid r)]
  cases v with
  | literal x => cases x <;> rfl
  | number n =>
      obtain ⟨b, t, hn, hb⟩ := n.eq_cons
      rw [Value.text, hn, List.cons_append]
      exact if_neg (ne_of_numberStart hb (by decide))
  | string s => rfl
  | empty k w' =>
      cases k with
      | array => rfl
      | object => cases h
  | container k es =>
      cases k with
      | array => rfl
      | object => cases h

/-- An object that is read shows its members, and a value that is read as one is one. -/
theorem object_yields (w : Ws) {v : Value} {r l : Bytes} {ms : List μ}
    (h : ∀ m ∈ v.members, Yields read Matches m)
    (hms : object read (w.text ++ (v.text ++ r)) = some (ms, l)) :
    List.Forall₂ Matches v.members ms ∧ l = r := by
  have hopen : ∀ t, symbol lbrace (w.text ++ lbrace :: t) = some t := symbol_ws w rfl
  have hobject : v.isObject = true := by
    by_contra hnot
    rw [object, symbol_lbrace_value w (Bool.eq_false_of_not_eq_true hnot)] at hms
    cases hms
  cases v with
  | empty k w' =>
      cases k with
      | array => cases hobject
      | object =>
          have htext : (Value.empty .object w').text ++ r =
              lbrace :: (w'.text ++ rbrace :: r) := by
            simp [Value.text, Kind.opening, Kind.closing]
          rw [htext, object, hopen, Option.bind_some] at hms
          obtain ⟨rfl, rfl⟩ := members_yield_close w' hms
          exact ⟨.nil, rfl⟩
  | container k es =>
      cases k with
      | array => cases hobject
      | object =>
          have htext : (Value.container .object es).text ++ r =
              lbrace :: (es.text ++ rbrace :: r) := by
            simp [Value.text, Kind.opening, Kind.closing]
          rw [htext, object, hopen, Option.bind_some] at hms
          exact es.members_yield h hms
  | literal _ => cases hobject
  | number _ => cases hobject
  | string _ => cases hobject

end members

/-! ## The members of a message -/

section fields

variable {μ : Type} {w : Ws} {v : Value} {r l l' : Bytes} {x : μ}

theorem map_skipped_eq_some {f : Slice → μ} (hr : EndsNumber r)
    (h : ((skipped (w.text ++ (v.text ++ r))).map fun s => (f s, s.stop)) = some (x, l)) :
    x = f ⟨v.text ++ r, r⟩ ∧ l = r := by
  obtain ⟨s, hskipped, heq⟩ := Option.map_eq_some_iff.mp h
  cases heq
  obtain rfl := skipped_text_of_some w v hr hskipped
  exact ⟨rfl, rfl⟩

theorem map_content_eq_some {f : Slice → μ}
    (h : ((content (w.text ++ (v.text ++ r))).map fun (s, l) => (f s, l)) = some (x, l)) :
    (∃ s, x = f s ∧ v.string? = some s.text) ∧ l = r := by
  obtain ⟨⟨s, r'⟩, hcontent, heq⟩ := Option.map_eq_some_iff.mp h
  cases heq
  obtain ⟨t, ht, rfl, rfl⟩ := content_of_some w v hcontent
  exact ⟨⟨_, rfl, by rw [Slice.text_append, ht]⟩, rfl⟩

theorem map_int_eq_some {f : Int → μ} (hr : EndsNumber r) (hsep : separator l = some l')
    (h : ((int (w.text ++ (v.text ++ r))).map fun (n, l) => (f n, l)) = some (x, l)) :
    (∃ n, x = f n ∧ v.int? = some n) ∧ l = r := by
  obtain ⟨⟨n, r'⟩, hint, heq⟩ := Option.map_eq_some_iff.mp h
  cases heq
  obtain ⟨hn, rfl⟩ := int_of_some w v hr hint hsep
  exact ⟨⟨n, rfl, hn⟩, rfl⟩

end fields

theorem yields_errorField (m : Bytes × Value) : Yields errorField ErrorField.Matches m := by
  intro w r l l' x hr hx hsep
  unfold ErrorField.Matches
  unfold errorField at hx
  split_ifs at hx ⊢ with hcode hmessage
  · exact map_int_eq_some hr hsep hx
  · exact map_content_eq_some hx
  · obtain ⟨rfl, rfl⟩ := map_skipped_eq_some hr hx
    exact ⟨⟨_, rfl⟩, rfl⟩

theorem yields_topField (m : Bytes × Value) : Yields topField TopField.Matches m := by
  obtain ⟨key, v⟩ := m
  intro w r l l' x hr hx hsep
  dsimp only at hx
  by_cases hjsonrpc : key = ascii "jsonrpc"
  · subst hjsonrpc
    rw [topField, if_pos rfl] at hx
    obtain ⟨rfl, rfl⟩ := map_skipped_eq_some hr hx
    exact ⟨⟨_, rfl⟩, rfl⟩
  rw [topField, if_neg hjsonrpc] at hx
  unfold TopField.Matches
  split_ifs at hx ⊢ with hmethod hid hparams hresult herror
  · exact map_content_eq_some hx
  · exact map_int_eq_some hr hsep hx
  · obtain ⟨rfl, rfl⟩ := map_skipped_eq_some hr hx
    exact ⟨⟨_, rfl, Slice.text_append _ _⟩, rfl⟩
  · obtain ⟨rfl, rfl⟩ := map_skipped_eq_some hr hx
    exact ⟨⟨_, rfl, Slice.text_append _ _⟩, rfl⟩
  · obtain ⟨⟨fields, r'⟩, hobject, heq⟩ := Option.map_eq_some_iff.mp hx
    cases heq
    obtain ⟨hmatches, rfl⟩ := object_yields w (fun m _ => yields_errorField m) hobject
    exact ⟨⟨_, _, rfl, hmatches⟩, rfl⟩
  · obtain ⟨rfl, rfl⟩ := map_skipped_eq_some hr hx
    exact ⟨⟨_, rfl⟩, rfl⟩

/-- A text of the grammar that is accepted shows the content of its object, whatever the depth of
its values. -/
theorem shows_of_parse (before : Ws) (v : Value) (after : Ws) {maxBytes : Nat} {msg : MCPMessage}
    (h : MCPMessage.parse (some (before.text ++ (v.text ++ after.text))) maxBytes = .ok msg)
    (hvalid : msg.valid = true) :
    msg.Shows (before.text ++ (v.text ++ after.text)) (.of v.members) := by
  obtain ⟨s, fields, r, hs, -, htop, rfl⟩ := parse_valid h hvalid
  cases hs
  obtain ⟨hmatches, -⟩ := object_yields before (fun m _ => yields_topField m) htop
  have hshows := shows_fill (p := []) hmatches
    (MCPMessage.blank_shows (before.text ++ (v.text ++ after.text)))
    fun f hmem m pre msg hmf hmsg => hmsg.topField hmf (top_sound htop f hmem)
  exact { hshows with }

end McpToolkit
