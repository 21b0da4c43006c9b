import McpToolkit.Json.Decode
/-!
# A text has one reading

Two syntax trees of one text decode to the same value, whatever follows the text.  The
first octet tells the kind of a value; a string ends at its first quote that is no
escape, and a number at the first octet that cannot continue it.
-/

namespace McpToolkit

open Scan

/-! ## Numbers -/

theorem Number.digits_of_toInt? {n : Number} {k : Int} (h : n.toInt? = some k) :
    ∀ b ∈ n.text, (b = minus || isdigit b) = true := by
  rw [(Number.text_of_toInt? h).1]
  intro b hb
  rw [Bool.or_eq_true, decide_eq_true_eq]
  rcases List.mem_append.mp hb with hb | hb
  · split_ifs at hb
    · exact .inl (List.mem_singleton.mp hb)
    · cases hb
  · exact .inr (n.int.digit b hb)

theorem Number.exists_of_toInt? {n : Number} (h : n.toInt? = none) :
    ∃ b ∈ n.text, (b = minus || isdigit b) = false := by
  have hmem : ∀ b ∈ n.fracText ++ n.expText, b ∈ n.text := by
    intro b hb
    rw [Number.text, List.append_assoc]
    exact List.mem_append_right _ hb
  cases hfrac : n.frac with
  | some d => exact ⟨point, hmem _ (by rw [Number.fracText, hfrac]; simp), by decide⟩
  | none =>
      cases hexp : n.exp with
      | some e =>
          refine ⟨e.letter, hmem _ ?_, ?_⟩
          · rw [Number.expText, hexp]
            simp [Exponent.text]
          · rcases e.isLetter with hletter | hletter <;> rw [hletter] <;> decide
      | none =>
          rw [Number.toInt?, hfrac, hexp] at h
          cases h

theorem Digits.ne_minus (d : Digits) (t : Bytes) : d.text ≠ minus :: t := by
  intro h
  exact absurd (d.digit minus (h ▸ List.mem_cons_self)) (by decide)

/-- The value of an integer literal depends on its text alone. -/
theorem Number.toInt?_congr {n n' : Number} (h : n.text = n'.text) : n.toInt? = n'.toInt? := by
  have hnone : ∀ {n n' : Number}, n.text = n'.text → n.toInt? = none → n'.toInt? = none := by
    intro n n' h hn
    obtain ⟨b, hb, hfalse⟩ := Number.exists_of_toInt? hn
    rw [h] at hb
    cases hn' : n'.toInt? with
    | none => rfl
    | some k =>
        rw [Number.digits_of_toInt? hn' b hb] at hfalse
        cases hfalse
  cases hn : n.toInt? with
  | none => exact (hnone h hn).symm
  | some k =>
      cases hn' : n'.toInt? with
      | none => rw [hnone h.symm hn'] at hn; cases hn
      | some k' =>
          obtain ⟨htext, rfl⟩ := Number.text_of_toInt? hn
          obtain ⟨htext', rfl⟩ := Number.text_of_toInt? hn'
          rw [htext, htext'] at h
          cases hneg : n.negative <;> cases hneg' : n'.negative <;> rw [hneg, hneg'] at h
          · exact congrArg (fun ds => some (natFrom 0 ds : Int)) h
          · exact absurd h (n.int.ne_minus _)
          · exact absurd h.symm (n'.int.ne_minus _)
          · exact congrArg (fun ds => some (-(natFrom 0 ds : Int))) (List.cons.inj h).2

theorem Number.json_congr {n n' : Number} (h : n.text = n'.text) : n.json = n'.json := by
  rw [Number.json, Number.json, Number.toInt?_congr h, h]

/-! ## Strings -/

theorem StrChar.text_inj {c c' : StrChar} {r r' : Bytes} (h : c.text ++ r = c'.text ++ r') :
    c = c' ∧ r = r' := by
  have hescapes : (0x75 : UInt8) ∉ escapes := by decide
  cases c with
  | plain b hb =>
      cases c' with
      | plain b' _ => simpa [StrChar.text] using h
      | escape e _ => exact absurd (List.cons.inj h).1 hb.2.2
      | unicode a b c d _ => exact absurd (List.cons.inj h).1 hb.2.2
  | escape e he =>
      cases c' with
      | plain b hb => exact absurd (List.cons.inj h).1.symm hb.2.2
      | escape e' _ => simpa [StrChar.text] using h
      | unicode a b c d _ =>
          have hletter := (List.cons.inj (List.cons.inj h).2).1
          exact absurd (hletter ▸ he) hescapes
  | unicode a b c d _ =>
      cases c' with
      | plain b hb => exact absurd (List.cons.inj h).1.symm hb.2.2
      | escape e he =>
          have hletter := (List.cons.inj (List.cons.inj h).2).1
          exact absurd (hletter ▸ he) hescapes
      | unicode a' b' c' d' _ => simpa [StrChar.text, and_assoc] using h

theorem StrChar.ne_quote (c : StrChar) (r t : Bytes) : c.text ++ r ≠ quote :: t := by
  intro h
  cases c with
  | plain b hb => exact hb.2.1 (List.cons.inj h).1
  | escape e _ => exact absurd (List.cons.inj h).1 (by decide)
  | unicode a b c d _ => exact absurd (List.cons.inj h).1 (by decide)

/-- The end of a string is not mistaken, and neither are its characters. -/
theorem Str.text_inj {s s' : Str} {r r' : Bytes}
    (h : s.text ++ quote :: r = s'.text ++ quote :: r') : s = s' ∧ r = r' := by
  have hcons : ∀ (c : StrChar) (cs : List StrChar),
      (Str.mk (c :: cs)).text = c.text ++ (Str.mk cs).text := fun c cs => List.flatMap_cons
  obtain ⟨cs⟩ := s
  obtain ⟨cs'⟩ := s'
  induction cs generalizing cs' with
  | nil =>
      cases cs' with
      | nil => exact ⟨rfl, (List.cons.inj h).2⟩
      | cons c' cs' =>
          rw [hcons, List.append_assoc] at h
          exact absurd h.symm (c'.ne_quote _ _)
  | cons c cs ih =>
      cases cs' with
      | nil =>
          rw [hcons, List.append_assoc] at h
          exact absurd h (c.ne_quote _ _)
      | cons c' cs' =>
          rw [hcons, hcons, List.append_assoc, List.append_assoc] at h
          obtain ⟨rfl, hrest⟩ := StrChar.text_inj h
          obtain ⟨hs, hr⟩ := ih cs' hrest
          cases hs
          exact ⟨rfl, hr⟩

/-! ## Values -/

/-- What the first octet of a text says about its value. -/
def leading (b : UInt8) : UInt8 := if b = minus || isdigit b then 0x30 else b

def Literal.tag : Literal → UInt8
  | .true => 0x74
  | .false => 0x66
  | .null => 0x6E

def Value.tag : Value → UInt8
  | .literal l => l.tag
  | .number _ => 0x30
  | .string _ => quote
  | .empty k _ => k.opening
  | .container k _ => k.opening

theorem Value.tag_eq (v : Value) : ∃ b t, v.text = b :: t ∧ leading b = v.tag := by
  cases v with
  | literal l => cases l <;> exact ⟨_, _, rfl, rfl⟩
  | number n =>
      obtain ⟨b, t, h, hb⟩ := n.eq_cons
      exact ⟨b, t, h, if_pos hb⟩
  | string s => exact ⟨_, _, rfl, rfl⟩
  | empty k w => cases k <;> exact ⟨_, _, rfl, rfl⟩
  | container k es => cases k <;> exact ⟨_, _, rfl, rfl⟩

theorem Value.tag_congr {v v' : Value} {r r' : Bytes} (h : v.text ++ r = v'.text ++ r') :
    v.tag = v'.tag := by
  obtain ⟨b, t, htext, htag⟩ := v.tag_eq
  obtain ⟨b', t', htext', htag'⟩ := v'.tag_eq
  rw [htext, htext'] at h
  rw [← htag, ← htag', (List.cons.inj h).1]

section tags

variable {v : Value}

theorem Literal.tag_ne (l : Literal) (k : Kind) :
    l.tag ≠ 0x30 ∧ l.tag ≠ quote ∧ l.tag ≠ k.opening := by
  cases l <;> cases k <;> decide

theorem Kind.opening_ne (k : Kind) : k.opening ≠ 0x30 ∧ k.opening ≠ quote := by
  cases k <;> decide

theorem Value.of_literal {l : Literal} (h : v.tag = l.tag) : v = .literal l := by
  cases v with
  | literal l' => cases l <;> cases l' <;> first | rfl | exact absurd h (by decide)
  | number n => exact absurd h.symm (l.tag_ne .array).1
  | string s => exact absurd h.symm (l.tag_ne .array).2.1
  | empty k w => exact absurd h.symm (l.tag_ne k).2.2
  | container k es => exact absurd h.symm (l.tag_ne k).2.2

theorem Value.of_number (h : v.tag = 0x30) : ∃ n, v = .number n := by
  cases v with
  | literal l => exact absurd h (l.tag_ne .array).1
  | number n => exact ⟨n, rfl⟩
  | string s => cases h
  | empty k w => exact absurd h k.opening_ne.1
  | container k es => exact absurd h k.opening_ne.1

theorem Value.of_quote (h : v.tag = quote) : ∃ s, v = .string s := by
  cases v with
  | literal l => exact absurd h (l.tag_ne .array).2.1
  | number n => cases h
  | string s => exact ⟨s, rfl⟩
  | empty k w => exact absurd h k.opening_ne.2
  | container k es => exact absurd h k.opening_ne.2

theorem Value.of_opening {k : Kind} (h : v.tag = k.opening) :
    (∃ w, v = .empty k w) ∨ ∃ es, v = .container k es := by
  cases v with
  | literal l => exact absurd h (l.tag_ne k).2.2
  | number n => exact absurd h.symm k.opening_ne.1
  | string s => exact absurd h.symm k.opening_ne.2
  | empty j w =>
      cases Kind.opening_inj h
      exact .inl ⟨w, rfl⟩
  | container j es =>
      cases Kind.opening_inj h
      exact .inr ⟨es, rfl⟩

end tags

theorem Ws.text_inj {w w' : Ws} {l l' : Bytes} (hl : Solid l) (hl' : Solid l')
    (h : w.text ++ l = w'.text ++ l') : l = l' := by
  rw [← w.blanks_solid hl, h, w'.blanks_solid hl']

/-! ## Entries -/

/-- What follows an entry: a comma or a closing bracket. -/
def EndsEntry (r : Bytes) : Prop := ∃ b t, r = b :: t ∧ (b = comma ∨ ∃ k : Kind, b = k.closing)

theorem EndsEntry.solid {r : Bytes} (h : EndsEntry r) : Solid r := by
  obtain ⟨b, t, rfl, rfl | ⟨k, rfl⟩⟩ := h
  · rfl
  · cases k <;> rfl

theorem EndsEntry.endsNumber {r : Bytes} (h : EndsEntry r) (w : Ws) :
    EndsNumber (w.text ++ r) := by
  obtain ⟨b, t, rfl, hb⟩ := h
  exact .of_separator w hb t

theorem Label.text_inj {k : Kind} {l l' : Label k} {v v' : Value} {r r' : Bytes}
    (h : l.text ++ (v.text ++ r) = l'.text ++ (v'.text ++ r')) :
    l.unescape = l'.unescape ∧ v.text ++ r = v'.text ++ r' := by
  cases l with
  | element =>
      cases l'
      exact ⟨rfl, h⟩
  | key s w₁ w₂ =>
      cases l' with | key s' w₁' w₂' => ?_
      have hname : s.text ++ quote :: (w₁.text ++ colon :: (w₂.text ++ (v.text ++ r))) =
          s'.text ++ quote :: (w₁'.text ++ colon :: (w₂'.text ++ (v'.text ++ r'))) := by
        simpa [Label.text] using h
      obtain ⟨rfl, hcolon⟩ := Str.text_inj hname
      have hsolid : ∀ t, Solid (colon :: t) := fun _ => rfl
      have hvalue := (List.cons.inj (Ws.text_inj (hsolid _) (hsolid _) hcolon)).2
      exact ⟨rfl, Ws.text_inj (v.solid r) (v'.solid r') hvalue⟩

/-- Nothing is left out at the start of a container. -/
theorem Label.ne_closing {k : Kind} (l : Label k) (v : Value) (r t : Bytes) :
    l.text ++ (v.text ++ r) ≠ k.closing :: t := by
  intro h
  cases l with
  | element =>
      obtain ⟨b, u, htext, htag⟩ := v.tag_eq
      rw [htext] at h
      rw [show b = rbracket from (List.cons.inj h).1] at htag
      cases v with
      | literal l => cases l <;> cases htag
      | number n => cases htag
      | string s => cases htag
      | empty k w => cases k <;> cases htag
      | container k es => cases k <;> cases htag
  | key s w w' => exact absurd (List.cons.inj h).1 (by decide)

theorem Label.solid {k : Kind} (l : Label k) (v : Value) (r : Bytes) :
    Solid (l.text ++ (v.text ++ r)) := by
  cases l with
  | element => exact v.solid r
  | key s w w' => rfl

theorem entry_inj {k : Kind} {w w' a a' : Ws} {l l' : Label k} {v v' : Value} {r r' : Bytes}
    (hr : EndsEntry r) (hr' : EndsEntry r')
    (hv : ∀ {t t' : Bytes}, EndsNumber t → EndsNumber t' → v.text ++ t = v'.text ++ t' →
      v.json = v'.json ∧ t = t')
    (h : w.text ++ (l.text ++ (v.text ++ (a.text ++ r))) =
      w'.text ++ (l'.text ++ (v'.text ++ (a'.text ++ r')))) :
    (l.unescape, v.json) = (l'.unescape, v'.json) ∧ r = r' := by
  obtain ⟨hname, hvalue⟩ := Label.text_inj (Ws.text_inj (l.solid v _) (l'.solid v' _) h)
  obtain ⟨hjson, hrest⟩ := hv (hr.endsNumber a) (hr'.endsNumber a') hvalue
  rw [hname, hjson]
  exact ⟨rfl, Ws.text_inj hr.solid hr'.solid hrest⟩

theorem EndsEntry.closing (k : Kind) (t : Bytes) : EndsEntry (k.closing :: t) :=
  ⟨_, t, rfl, .inr ⟨k, rfl⟩⟩

theorem EndsEntry.comma (t : Bytes) : EndsEntry (comma :: t) := ⟨_, t, rfl, .inl rfl⟩

theorem Entries.last_text {k : Kind} (w a : Ws) (l : Label k) (v : Value) (r : Bytes) :
    (Entries.last w l v a).text ++ r = w.text ++ (l.text ++ (v.text ++ (a.text ++ r))) := by
  simp [Entries.text]

theorem Entries.more_text {k : Kind} (w a : Ws) (l : Label k) (v : Value) (es : Entries k)
    (r : Bytes) : (Entries.more w l v a es).text ++ r =
      w.text ++ (l.text ++ (v.text ++ (a.text ++ McpToolkit.comma :: (es.text ++ r)))) := by
  simp [Entries.text]

theorem Entries.ne_empty {k : Kind} (es : Entries k) (w : Ws) (r t : Bytes) :
    es.text ++ r ≠ w.text ++ k.closing :: t := by
  intro h
  cases es with
  | last w' l v a =>
      rw [Entries.last_text] at h
      exact l.ne_closing v _ t (Ws.text_inj (l.solid v _) (EndsEntry.closing k t).solid h)
  | more w' l v a es =>
      rw [Entries.more_text] at h
      exact l.ne_closing v _ t (Ws.text_inj (l.solid v _) (EndsEntry.closing k t).solid h)

theorem Kind.closing_ne_comma (k : Kind) : k.closing ≠ comma := by
  cases k <;> decide

mutual

/-- Whatever follows, a text has one reading. -/
theorem Value.json_inj : ∀ (v v' : Value) {r r' : Bytes}, EndsNumber r → EndsNumber r' →
    v.text ++ r = v'.text ++ r' → v.json = v'.json ∧ r = r'
  | .literal l, v', r, r', _, _, h => by
      cases Value.of_literal (Value.tag_congr h).symm
      exact ⟨rfl, List.append_cancel_left h⟩
  | .number n, v', r, r', hr, hr', h => by
      obtain ⟨n', rfl⟩ := Value.of_number (Value.tag_congr h).symm
      have hrest : some r = some r' := by
        rw [← n.number_text hr, ← n'.number_text hr']
        exact congrArg number h
      cases hrest
      exact ⟨Number.json_congr (List.append_cancel_right h), rfl⟩
  | .string s, v', r, r', _, _, h => by
      obtain ⟨s', rfl⟩ := Value.of_quote (Value.tag_congr h).symm
      have hbody : s.text ++ quote :: r = s'.text ++ quote :: r' := by
        simpa [Value.text] using h
      obtain ⟨rfl, hr⟩ := Str.text_inj hbody
      exact ⟨rfl, hr⟩
  | .empty k w, v', r, r', _, _, h => by
      rcases Value.of_opening (Value.tag_congr h).symm with ⟨w', rfl⟩ | ⟨es, rfl⟩
      · have hbody : w.text ++ k.closing :: r = w'.text ++ k.closing :: r' := by
          simpa [Value.text] using h
        have hclosing := Ws.text_inj (EndsEntry.closing k r).solid (EndsEntry.closing k r').solid
          hbody
        exact ⟨rfl, (List.cons.inj hclosing).2⟩
      · have hbody : w.text ++ k.closing :: r = es.text ++ k.closing :: r' := by
          simpa [Value.text] using h
        exact absurd hbody.symm (es.ne_empty w _ r)
  | .container k es, v', r, r', _, _, h => by
      rcases Value.of_opening (Value.tag_congr h).symm with ⟨w', rfl⟩ | ⟨es', rfl⟩
      · have hbody : es.text ++ k.closing :: r = w'.text ++ k.closing :: r' := by
          simpa [Value.text] using h
        exact absurd hbody (es.ne_empty w' _ r')
      · have hbody : es.text ++ k.closing :: r = es'.text ++ k.closing :: r' := by
          simpa [Value.text] using h
        obtain ⟨hjson, hr⟩ := Entries.json_inj es es' hbody
        rw [Value.json, Value.json, hjson]
        exact ⟨rfl, hr⟩

theorem Entries.json_inj : ∀ {k : Kind} (es es' : Entries k) {r r' : Bytes},
    es.text ++ k.closing :: r = es'.text ++ k.closing :: r' → es.json = es'.json ∧ r = r'
  | k, .last w l v a, .last w' l' v' a', r, r', h => by
      rw [Entries.last_text, Entries.last_text] at h
      obtain ⟨he, hr⟩ := entry_inj (.closing k r) (.closing k r') (Value.json_inj v v') h
      rw [Entries.json, Entries.json, he]
      exact ⟨rfl, (List.cons.inj hr).2⟩
  | k, .last w l v a, .more w' l' v' a' es', r, r', h => by
      rw [Entries.last_text, Entries.more_text] at h
      obtain ⟨-, hr⟩ := entry_inj (.closing k r) (.comma _) (Value.json_inj v v') h
      exact absurd (List.cons.inj hr).1 k.closing_ne_comma
  | k, .more w l v a es, .last w' l' v' a', r, r', h => by
      rw [Entries.more_text, Entries.last_text] at h
      obtain ⟨-, hr⟩ := entry_inj (.comma _) (.closing k r') (Value.json_inj v v') h
      exact absurd (List.cons.inj hr).1.symm k.closing_ne_comma
  | k, .more w l v a es, .more w' l' v' a' es', r, r', h => by
      rw [Entries.more_text, Entries.more_text] at h
      obtain ⟨he, hr⟩ := entry_inj (.comma _) (.comma _) (Value.json_inj v v') h
      obtain ⟨hes, hrest⟩ := Entries.json_inj es es' (List.cons.inj hr).2
      rw [Entries.json, Entries.json, he, hes]
      exact ⟨rfl, hrest⟩

end

theorem Ws.endsNumber (w : Ws) : EndsNumber w.text := by
  have hnil : EndsNumber [] := ⟨rfl, rfl, rfl⟩
  simpa using hnil.ws w

/-- A text decodes to one value at most. -/
theorem Decodes.unique {w : Bytes} {j j' : Json} (h : Decodes w j) (h' : Decodes w j') : j = j' := by
  obtain ⟨before, after, v, rfl, rfl⟩ := h
  obtain ⟨before', after', v', htext, rfl⟩ := h'
  rw [List.append_assoc, List.append_assoc] at htext
  have hvalue := Ws.text_inj (v.solid after.text) (v'.solid after'.text) htext
  exact (Value.json_inj v v' after.endsNumber after'.endsNumber hvalue).1

end McpToolkit
