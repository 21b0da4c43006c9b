import McpToolkit.Base.Brackets
import McpToolkit.Json.Grammar
import McpToolkit.Json.Safety
/-!
# The brackets of a skipped value

A container is skipped by counting the brackets of its own kind outside strings.
That is what a stack of brackets sees only when the other kind balances between
the counted ones, and it limits the depth only where one kind is open.
-/

namespace McpToolkit

open JsonParser Scan

/-- The bracket that an octet is outside strings. -/
def bracketOf (b : UInt8) : List (Bracket Kind) :=
  if b = lbracket then [.opening .array]
  else if b = rbracket then [.closing .array]
  else if b = lbrace then [.opening .object]
  else if b = rbrace then [.closing .object]
  else []

/-- The brackets of a text outside its string literals. -/
def brackets : Mode → Bytes → List (Bracket Kind)
  | _, [] => []
  | .code, b :: t => bracketOf b ++ brackets (Mode.code.next b) t
  | mode, b :: t => brackets (mode.next b) t

theorem brackets_code_cons (b : UInt8) (t : Bytes) :
    brackets .code (b :: t) = bracketOf b ++ brackets (Mode.code.next b) t := rfl

theorem brackets_string_cons (b : UInt8) (t : Bytes) :
    brackets .string (b :: t) = brackets (Mode.string.next b) t := rfl

def Slice.brackets (s : Slice) : List (Bracket Kind) := McpToolkit.brackets .code s.text

theorem brackets_append (mode : Mode) (s t : Bytes) :
    brackets mode (s ++ t) = brackets mode s ++ brackets (mode.run s) t := by
  induction s generalizing mode with
  | nil => rfl
  | cons b s ih =>
      cases mode with
      | code => simp [brackets, ih]
      | string => exact ih _
      | escape => exact ih _

/-- Between the texts `l` and `r` stand the brackets `x`, outside strings. -/
def Spells (l r : Bytes) (x : List (Bracket Kind)) : Prop :=
  ∃ w, l = w ++ r ∧ Mode.code.run w = .code ∧ brackets .code w = x

theorem Spells.refl (l : Bytes) : Spells l l [] := ⟨[], rfl, rfl, rfl⟩

theorem Spells.trans {l s r : Bytes} {x y : List (Bracket Kind)} (hl : Spells l s x)
    (hs : Spells s r y) : Spells l r (x ++ y) := by
  obtain ⟨w, rfl, hmode, rfl⟩ := hl
  obtain ⟨w', rfl, hmode', rfl⟩ := hs
  refine ⟨w ++ w', (List.append_assoc _ _ _).symm, ?_, ?_⟩
  · rw [Mode.run_append, hmode, hmode']
  · rw [brackets_append, hmode]

theorem Spells.byte {b : UInt8} (hq : b ≠ quote) (t : Bytes) :
    Spells (b :: t) t (bracketOf b) := by
  have hnext : Mode.code.next b = .code := if_neg hq
  refine ⟨[b], rfl, hnext, ?_⟩
  rw [brackets, brackets, List.append_nil]

theorem Spells.brackets_eq {s : Slice} {x : List (Bracket Kind)} (h : Spells s.start s.stop x) :
    s.brackets = x := by
  obtain ⟨w, hw, -, rfl⟩ := h
  rw [Slice.brackets, Slice.text, hw, List.length_append, Nat.add_sub_cancel, List.take_left]

/-! ## The scanners -/

/-- An octet that is neither a quote nor a bracket. -/
def Plain (b : UInt8) : Prop := b ≠ quote ∧ bracketOf b = []

instance (b : UInt8) : Decidable (Plain b) := inferInstanceAs (Decidable (_ ∧ _))

theorem plain_of_class {q : UInt8 → Bool}
    (hq : ∀ b ∈ [quote, lbracket, rbracket, lbrace, rbrace], q b = false) {b : UInt8} (hb : q b) :
    Plain b := by
  have hne : ∀ c ∈ [quote, lbracket, rbracket, lbrace, rbrace], b ≠ c := by
    rintro c hc rfl
    rw [hq b hc] at hb
    cases hb
  refine ⟨hne quote (by decide), ?_⟩
  rw [bracketOf, if_neg (hne _ (by decide)), if_neg (hne _ (by decide)),
    if_neg (hne _ (by decide)), if_neg (hne _ (by decide))]

theorem Spells.plain {b : UInt8} (h : Plain b) (t : Bytes) : Spells (b :: t) t [] :=
  h.2 ▸ Spells.byte h.1 t

theorem spells_plain {w : Bytes} (h : ∀ b ∈ w, Plain b) (r : Bytes) : Spells (w ++ r) r [] := by
  induction w with
  | nil => exact Spells.refl r
  | cons b w ih =>
      rw [List.forall_mem_cons] at h
      exact (Spells.plain h.1 (w ++ r)).trans (ih h.2)

theorem spells_consumed {l r : Bytes} (h : Consumes Plain l r) : Spells l r [] := by
  obtain ⟨w, rfl, hw⟩ := h
  exact spells_plain hw r

theorem spells_blanks (l : Bytes) : Spells l (blanks l) [] :=
  spells_consumed ((consumes_dropWhile isspace l).mono fun _ => plain_of_class (by decide +kernel))

theorem plain_of_isNumberChar {b : UInt8} (h : isNumberChar b) : Plain b :=
  plain_of_class (by decide +kernel) h

theorem spells_number {l r : Bytes} (h : number l = some r) : Spells l r [] :=
  spells_consumed ((consumes_number h).mono fun _ => plain_of_isNumberChar)

theorem spells_literal {word l r : Bytes} (hword : ∀ b ∈ word, Plain b)
    (h : literal word l = some r) : Spells l r [] :=
  spells_consumed ((consumes_literal h).mono hword)

theorem spells_string {l r : Bytes} (h : string l = some r) : Spells (quote :: l) r [] := by
  obtain ⟨w, rfl, hmode, hbrackets⟩ : ∃ w, l = w ++ r ∧ Mode.string.run w = .code ∧
      brackets .string w = [] := by
    induction l using string.induct with
    | case1 => cases h
    | case2 t =>
        rw [string_quote] at h
        cases h
        exact ⟨[quote], rfl, rfl, rfl⟩
    | case3 => cases h
    | case4 e t hq ih =>
        rw [string_escape] at h
        obtain ⟨w, rfl, hmode, hbrackets⟩ := ih h
        exact ⟨backslash :: e :: w, rfl, hmode, hbrackets⟩
    | case5 b t hq hb ih =>
        rw [string_cons hq hb] at h
        obtain ⟨w, rfl, hmode, hbrackets⟩ := ih h
        have hnext := Mode.next_string hq hb
        refine ⟨b :: w, rfl, ?_, ?_⟩
        · rwa [Mode.run_cons, hnext]
        · rwa [brackets_string_cons, hnext]
  exact ⟨quote :: w, rfl, hmode, hbrackets⟩

/-! ## Containers -/

theorem bracketOf_opening (k : Kind) : bracketOf k.opening = [.opening k] := by
  cases k <;> decide

theorem bracketOf_closing (k : Kind) : bracketOf k.closing = [.closing k] := by
  cases k <;> decide

theorem bracketOf_other {k : Kind} {b : UInt8} (ho : b ≠ k.opening) (hc : b ≠ k.closing) :
    bracketOf b = [] ∨ ∃ x, bracketOf b = [x] ∧ Bracket.weight k x = 0 := by
  unfold bracketOf
  cases k
  all_goals
    split_ifs
    all_goals first
      | exact absurd ‹_› ho
      | exact absurd ‹_› hc
      | exact .inl rfl
      | exact .inr ⟨_, rfl, rfl⟩

/-- The container scanner counts the brackets of its own kind. -/
theorem container_counts (k : Kind) {l : Bytes} : ∀ {mode : Mode} {d : Nat} {r : Bytes},
    container k.opening k.closing mode d l = some r → 1 ≤ d → d ≤ kMaxDepth →
      ∃ w, l = w ++ r ∧ mode.run w = .code ∧
        Bracket.Counts k (kMaxDepth : Int) d (brackets mode w) := by
  induction l with
  | nil =>
      intro mode d r h
      cases mode <;> cases h
  | cons b t ih =>
      intro mode d r h hpos hmax
      cases mode with
      | string =>
          obtain ⟨w, rfl, hw⟩ := ih h hpos hmax
          exact ⟨b :: w, rfl, hw⟩
      | escape =>
          obtain ⟨w, rfl, hw⟩ := ih h hpos hmax
          exact ⟨b :: w, rfl, hw⟩
      | code =>
          by_cases hq : b = quote
          · subst hq
            rw [container_code_quote] at h
            obtain ⟨w, rfl, hw⟩ := ih h hpos hmax
            exact ⟨quote :: w, rfl, hw⟩
          have hnext : Mode.code.next b = .code := if_neg hq
          have hle : (d : Int) ≤ kMaxDepth := Int.ofNat_le.mpr hmax
          have hcons : ∀ {d' : Nat} {r : Bytes}, container k.opening k.closing .code d' t = some r →
              1 ≤ d' → d' ≤ kMaxDepth → ∀ x, bracketOf b = [x] → (d' : Int) = d + Bracket.weight k x →
              ∃ w, b :: t = w ++ r ∧ Mode.code.run w = .code ∧
                Bracket.Counts k (kMaxDepth : Int) d (brackets .code w) := by
            intro d' r h hpos' hmax' x hx hd'
            obtain ⟨w, rfl, hw, hcounts⟩ := ih h hpos' hmax'
            refine ⟨b :: w, rfl, by rwa [Mode.run_cons, hnext], ?_⟩
            rw [brackets_code_cons, hnext, hx]
            exact Bracket.Counts.cons (by omega) hle (hd' ▸ hcounts)
          rw [container_code_cons _ _ _ hq] at h
          split_ifs at h with ho hover hc hone
          · subst ho
            refine hcons h (by omega) (Nat.le_of_not_lt hover) _ (bracketOf_opening k) ?_
            rw [Bracket.weight_opening]
            rfl
          · cases h
            subst hc hone
            refine ⟨[k.closing], rfl, hnext, ?_⟩
            rw [brackets_code_cons, hnext, bracketOf_closing]
            exact Bracket.Counts.last hle
          · subst hc
            refine hcons h (by omega) (by omega) _ (bracketOf_closing k) ?_
            rw [Bracket.weight_closing]
            omega
          · rcases bracketOf_other ho hc with hnil | ⟨x, hx, hzero⟩
            · obtain ⟨w, rfl, hw, hcounts⟩ := ih h hpos hmax
              refine ⟨b :: w, rfl, by rwa [Mode.run_cons, hnext], ?_⟩
              rwa [brackets_code_cons, hnext, hnil]
            · exact hcons h hpos hmax x hx (by omega)

/-- A container spells a balanced word in its own two brackets, never deeper in
its own kind than the limit. -/
theorem spells_container (k : Kind) {t r : Bytes}
    (h : container k.opening k.closing .code 1 t = some r) :
    ∃ b, Spells (k.opening :: t) r (.opening k :: b ++ [.closing k]) ∧ Bracket.Balanced k b ∧
      ∀ p, p <+: b → 1 + Bracket.height k p ≤ (kMaxDepth : Int) := by
  obtain ⟨w, rfl, hw, hcounts⟩ := container_counts k h le_rfl (by decide)
  obtain ⟨b, hb, hbalanced, hmax⟩ := hcounts.shape
  have hquote : k.opening ≠ quote := by
    cases k <;> decide
  have hspells : Spells (w ++ r) r (b ++ [.closing k]) := ⟨w, rfl, hw, hb⟩
  refine ⟨b, ?_, hbalanced, hmax⟩
  have := (Spells.byte hquote (w ++ r)).trans hspells
  rwa [bracketOf_opening] at this

/-- The kind of a value that is a container. -/
def ownKind : Bytes → Option Kind
  | [] => none
  | b :: _ => if b = lbrace then some .object else if b = lbracket then some .array else none

/-- What a value spells: nothing, unless it is a container. -/
theorem spells_value {l r : Bytes} (h : value l = some r) :
    (ownKind l = none ∧ Spells l r []) ∨
      ∃ k b, ownKind l = some k ∧ Spells l r (.opening k :: b ++ [.closing k]) ∧
        Bracket.Balanced k b ∧ ∀ p, p <+: b → 1 + Bracket.height k p ≤ (kMaxDepth : Int) := by
  cases l with
  | nil => cases h
  | cons c t =>
      rw [value] at h
      split_ifs at h with hq ho ha ht hf hn hd
      · subst hq
        exact .inl ⟨rfl, spells_string h⟩
      · subst ho
        obtain ⟨b, hb⟩ := spells_container .object h
        exact .inr ⟨.object, b, rfl, hb⟩
      · subst ha
        obtain ⟨b, hb⟩ := spells_container .array h
        exact .inr ⟨.array, b, rfl, hb⟩
      · exact .inl ⟨by rw [ht]; rfl, spells_literal (by decide +kernel) h⟩
      · exact .inl ⟨by rw [hf]; rfl, spells_literal (by decide +kernel) h⟩
      · exact .inl ⟨by rw [hn]; rfl, spells_literal (by decide +kernel) h⟩
      · refine .inl ⟨?_, spells_number h⟩
        rw [ownKind, if_neg ho, if_neg ha]

theorem spells_skipped {l : Bytes} {v : Slice} (h : skipped l = some v) :
    Spells l v.stop v.brackets := by
  obtain ⟨r, hr, rfl⟩ := Option.map_eq_some_iff.mp h
  rcases spells_value hr with ⟨-, hv⟩ | ⟨k, b, -, hv, -⟩
  · rw [Spells.brackets_eq (s := ⟨blanks l, r⟩) hv]
    exact (spells_blanks l).trans hv
  · rw [Spells.brackets_eq (s := ⟨blanks l, r⟩) hv]
    exact (spells_blanks l).trans hv

/-! ## Objects -/

theorem spells_symbol {b : UInt8} (hq : b ≠ quote) {l r : Bytes} (h : symbol b l = some r) :
    Spells l r (bracketOf b) := by
  have hblanks := spells_blanks l
  rw [symbol_eq_some.mp h] at hblanks
  exact hblanks.trans (Spells.byte hq r)

theorem spells_content {l r : Bytes} {s : Slice} (h : content l = some (s, r)) :
    Spells l r [] := by
  obtain ⟨t, ht, hr, -⟩ := content_eq_some.mp h
  have hblanks := spells_blanks l
  rw [ht] at hblanks
  exact hblanks.trans (spells_string hr)

theorem spells_separator {l r : Bytes} (h : separator l = some r) : Spells l r [] := by
  have hblanks := spells_blanks l
  rw [separator] at h
  cases hl : blanks l with
  | nil =>
      rw [hl] at h
      cases h
  | cons b t =>
      rw [hl] at h hblanks
      dsimp only at h
      split_ifs at h with hcomma hbrace
      · have hplain : Plain comma := by decide
        cases h
        subst hcomma
        exact hblanks.trans (Spells.plain hplain _)
      · cases h
        exact hblanks

theorem spells_int {l r : Bytes} {n : Int} (h : int l = some (n, r)) : Spells l r [] := by
  rw [int] at h
  obtain ⟨-, h⟩ := Option.ite_none_right_eq_some.mp h
  obtain ⟨⟨v, r'⟩, hv, heq⟩ := Option.map_eq_some_iff.mp h
  cases heq
  have hread := (consumes_minus (blanks l)).trans (consumes_intDigits hv)
  exact (spells_blanks l).trans (spells_consumed (hread.mono fun _ => plain_of_isNumberChar))

section members

variable {μ : Type} {read : Bytes → Bytes → Option (μ × Bytes)}
variable {spell : μ → List (Bracket Kind)}

theorem spells_member
    (hread : ∀ {key l r : Bytes} {x : μ}, read key l = some (x, r) → Spells l r (spell x))
    {l r : Bytes} {x : μ} (h : member read l = some (x, r)) : Spells l r (spell x) := by
  obtain ⟨key, l₁, l₂, l₃, hkey, hcolon, hx, hsep⟩ := member_eq_some.mp h
  have hl₂ := (spells_content hkey).trans (spells_symbol (by decide) hcolon)
  have := (hl₂.trans (hread hx)).trans (spells_separator hsep)
  rwa [List.append_nil] at this

theorem spells_membersWithin
    (hread : ∀ {key l r : Bytes} {x : μ}, read key l = some (x, r) → Spells l r (spell x))
    {n : Nat} : ∀ {l r : Bytes} {ms : List μ}, membersWithin read n l = some (ms, r) →
      Spells l r (ms.flatMap spell ++ [.closing .object]) := by
  induction n with
  | zero =>
      intro l r ms h
      cases h
  | succ n ih =>
      intro l r ms h
      rcases membersWithin_succ h with ⟨rfl, hb⟩ | ⟨x, l', ms', hm, hms, rfl⟩
      · exact spells_symbol (by decide) hb
      · rw [List.flatMap_cons, List.append_assoc]
        exact (spells_member hread hm).trans (ih hms)

/-- An object spells what its members spell, in its own two brackets. -/
theorem spells_object
    (hread : ∀ {key l r : Bytes} {x : μ}, read key l = some (x, r) → Spells l r (spell x))
    {l r : Bytes} {ms : List μ} (h : object read l = some (ms, r)) :
    Spells (blanks l) r (.opening .object :: ms.flatMap spell ++ [.closing .object]) := by
  obtain ⟨l', hl', hms⟩ := Option.bind_eq_some_iff.mp h
  rw [symbol_eq_some.mp hl']
  exact (Spells.byte (by decide) l').trans (spells_membersWithin hread hms)

end members

/-! ## Skipped values -/

/-- The values that the parser passes over without looking inside. -/
def ErrorField.skipped : ErrorField → List Slice
  | .other v => [v]
  | _ => []

def TopField.skipped : TopField → List Slice
  | .params v => [v]
  | .result v => [v]
  | .error fields _ => fields.flatMap ErrorField.skipped
  | .other v => [v]
  | _ => []

theorem spells_errorField {key l r : Bytes} {f : ErrorField}
    (h : errorField key l = some (f, r)) : Spells l r (f.skipped.flatMap Slice.brackets) := by
  rw [errorField] at h
  split_ifs at h
  all_goals obtain ⟨y, hy, heq⟩ := Option.map_eq_some_iff.mp h
  all_goals cases heq
  · exact spells_int hy
  · exact spells_content hy
  · simpa [ErrorField.skipped] using spells_skipped hy

/-- The brackets of an error object are those of the values in it, in its own. -/
theorem Slice.IsErrorObject.brackets_eq {input : Bytes} {v : Slice} {fields : List ErrorField}
    (h : v.IsErrorObject input fields) :
    v.brackets = .opening .object ::
      (fields.flatMap fun f => f.skipped.flatMap Slice.brackets) ++ [.closing .object] := by
  have := spells_object spells_errorField h.scans
  rw [h.trimmed] at this
  exact this.brackets_eq

theorem skipped_isValue {buf r : Bytes} {fields : List TopField}
    (h : top buf = some (fields, r)) : ∀ v ∈ fields.flatMap TopField.skipped, v.IsValue buf := by
  intro v hv
  obtain ⟨f, hf, hv⟩ := List.mem_flatMap.mp hv
  have hsound := top_sound h f hf
  cases f with
  | params u => exact List.mem_singleton.mp hv ▸ hsound
  | result u => exact List.mem_singleton.mp hv ▸ hsound
  | other u => exact List.mem_singleton.mp hv ▸ hsound
  | error es u =>
      obtain ⟨e, he, hv⟩ := List.mem_flatMap.mp hv
      have hesound := hsound.2 e he
      cases e with
      | other u => exact List.mem_singleton.mp hv ▸ hesound
      | code n => cases hv
      | message s => cases hv
  | method s => cases hv
  | id n => cases hv

/-- The spans of `params` and `result` are of skipped values. -/
def MCPMessage.PointsAt (msg : MCPMessage) (n : Nat) (values : List Slice) : Prop :=
  ∀ span ∈ [msg.params, msg.result], span.start = none ∨ ∃ v ∈ values, span = v.span n

theorem ErrorField.apply_pointsAt (f : ErrorField) {msg : MCPMessage} {n : Nat}
    {values : List Slice} (h : msg.PointsAt n values) : (f.apply n msg).PointsAt n values := by
  cases f <;> exact h

theorem TopField.apply_pointsAt {f : TopField} {msg : MCPMessage} {n : Nat}
    {values : List Slice} (hf : ∀ v ∈ f.skipped, v ∈ values) (h : msg.PointsAt n values) :
    (f.apply n msg).PointsAt n values := by
  have hparams := h msg.params (by simp)
  have hresult := h msg.result (by simp)
  cases f with
  | params v =>
      have hv : v ∈ values := hf v (List.mem_singleton.mpr rfl)
      simpa [MCPMessage.PointsAt, TopField.apply] using
        ⟨Or.inr (⟨v, hv, rfl⟩ : ∃ u ∈ values, v.span n = u.span n), hresult⟩
  | result v =>
      have hv : v ∈ values := hf v (List.mem_singleton.mpr rfl)
      simpa [MCPMessage.PointsAt, TopField.apply] using
        ⟨hparams, Or.inr (⟨v, hv, rfl⟩ : ∃ u ∈ values, v.span n = u.span n)⟩
  | error fields v =>
      exact fill_induction (P := fun msg => msg.PointsAt n values) h
        fun f _ _ h => ErrorField.apply_pointsAt f h
  | method s => exact h
  | id k => exact h
  | other v => exact h

theorem ofFields_pointsAt (buf : Bytes) (fields : List TopField) :
    (MCPMessage.ofFields buf fields).PointsAt buf.length (fields.flatMap TopField.skipped) := by
  refine fill_induction
    (P := fun msg => msg.PointsAt buf.length (fields.flatMap TopField.skipped)) ?_
    fun f hf _ h => TopField.apply_pointsAt (fun v hv => List.mem_flatMap.mpr ⟨f, hf, hv⟩) h
  simp [MCPMessage.PointsAt, MCPMessage.blank]

/-! ## Nesting -/

theorem ownKind_text {buf : Bytes} {v : Slice} (h : v.IsValue buf) :
    ownKind v.text = ownKind v.start := by
  obtain ⟨b, t, ht, -, w, rfl⟩ := value_cons h.scans
  have htext : v.text = b :: w := by
    rw [Slice.text, ht, ← List.cons_append, List.length_append, Nat.add_sub_cancel,
      List.take_left]
  rw [htext, ht]
  rfl

/-- The brackets of the other kind balance between those that the parser counts. -/
def Slice.CountsAgree (v : Slice) : Prop :=
  ∀ k, ownKind v.text = some k → Bracket.PairsBalance k k.other v.brackets

theorem Slice.IsValue.nested_iff {buf : Bytes} {v : Slice} (h : v.IsValue buf) :
    Bracket.Nested v.brackets ↔ v.CountsAgree := by
  rw [Slice.CountsAgree, ownKind_text h]
  rcases spells_value h.scans with ⟨hown, hspells⟩ | ⟨k, b, hown, hspells, hb, -⟩
  · rw [hspells.brackets_eq, hown]
    exact iff_of_true rfl fun k hk => by cases hk
  · rw [hspells.brackets_eq, hown, Bracket.nested_iff k.other_ne k.eq_or_other hb]
    constructor
    · rintro hpairs k' hk'
      cases hk'
      exact hpairs
    · exact fun hpairs => hpairs k rfl

theorem parse_nested_iff {buf : Bytes} {maxBytes : Nat} {msg : MCPMessage}
    (h : MCPMessage.parse (some buf) maxBytes = .ok msg) (hvalid : msg.valid = true) :
    ∃ fields rest, top buf = some (fields, rest) ∧ msg = .ofFields buf fields ∧
      (∀ span ∈ [msg.params, msg.result], span.start = none ∨
        ∃ v ∈ fields.flatMap TopField.skipped, span = v.span buf.length ∧
          span.text buf = .ok v.text) ∧
      ((∀ v ∈ fields.flatMap TopField.skipped, Bracket.Nested v.brackets) ↔
        ∀ v ∈ fields.flatMap TopField.skipped, v.CountsAgree) := by
  obtain ⟨s, fields, r, hs, -, ht, rfl⟩ := parse_valid h hvalid
  cases hs
  have hvalue := skipped_isValue ht
  refine ⟨fields, r, ht, rfl, fun span hspan => ?_, ?_⟩
  · rcases ofFields_pointsAt buf fields span hspan with hnull | ⟨v, hv, rfl⟩
    · exact .inl hnull
    · exact .inr ⟨v, hv, rfl, Slice.text_span (hvalue v hv).inside⟩
  · exact forall₂_congr fun v hv => (hvalue v hv).nested_iff

theorem parse_nested_iff_of_pair :
    ∃ fields rest, top (ascii "\x7b\"params\":[\x7b\x7d]\x7d") = some (fields, rest) ∧
      ((∀ v ∈ fields.flatMap TopField.skipped, Bracket.Nested v.brackets) ↔
        ∀ v ∈ fields.flatMap TopField.skipped, v.CountsAgree) := by
  obtain ⟨fields, rest, htop, -, -, hiff⟩ := @parse_nested_iff
    (ascii "\x7b\"params\":[\x7b\x7d]\x7d") 20 _ rfl rfl
  exact ⟨fields, rest, htop, hiff⟩

/-- A second kind of bracket is never looked at. -/
theorem parse_accepts_unclosed :
    let buf := ascii "\x7b\"params\":\x7b\"a\":[\x7d\x7d"
    ∃ msg, MCPMessage.parse (some buf) kDefaultMaxBytes = .ok msg ∧ msg.valid = true ∧
      msg.params.text buf = .ok (ascii "\x7b\"a\":[\x7d") ∧
      ¬ Bracket.Nested (brackets .code (ascii "\x7b\"a\":[\x7d")) :=
  ⟨_, rfl, rfl, rfl, by decide⟩

/-! ## Depth -/

/-- The text of a member's value, where it can hold brackets. -/
def TopField.value : TopField → Option Slice
  | .params v => some v
  | .result v => some v
  | .error _ v => some v
  | .other v => some v
  | _ => none

/-- Both kinds of bracket are open nowhere past the limit, or, in an error
object, whose own braces the parser does not count, its values stay one level
short of the limit. -/
def TopField.Shallow : TopField → Prop
  | .error fields _ =>
      Bracket.DepthAtMost (kMaxDepth - 1 : Int)
        (fields.flatMap fun f => f.skipped.flatMap Slice.brackets)
  | f => ∀ v ∈ f.skipped, Bracket.MixedAtMost (kMaxDepth : Int) .array .object v.brackets

theorem Slice.IsValue.depth_iff {buf : Bytes} {v : Slice} (h : v.IsValue buf) :
    Bracket.DepthAtMost (kMaxDepth : Int) v.brackets ↔
      Bracket.MixedAtMost (kMaxDepth : Int) .array .object v.brackets := by
  rcases spells_value h.scans with ⟨-, hspells⟩ | ⟨k, b, -, hspells, hb, hmax⟩
  · rw [hspells.brackets_eq]
    refine iff_of_true (fun p hp => ?_) fun p hp hpos => ?_
    · rw [List.prefix_nil.mp hp]
      decide
    · rw [List.prefix_nil.mp hp] at hpos
      exact absurd hpos (by decide)
  · rw [hspells.brackets_eq, Bracket.depthAtMost_iff k.other_ne k.eq_or_other hb hmax]
    cases k with
    | array => rfl
    | object => exact ⟨Bracket.MixedAtMost.symm, Bracket.MixedAtMost.symm⟩

theorem TopField.depth_iff {buf : Bytes} {f : TopField} (h : f.Sound buf) :
    (∀ v, f.value = some v → Bracket.DepthAtMost (kMaxDepth : Int) v.brackets) ↔ f.Shallow := by
  cases f with
  | params v => simpa [TopField.value, TopField.Shallow, TopField.skipped] using h.depth_iff
  | result v => simpa [TopField.value, TopField.Shallow, TopField.skipped] using h.depth_iff
  | other v => simpa [TopField.value, TopField.Shallow, TopField.skipped] using h.depth_iff
  | error fields v =>
      have hmax : (kMaxDepth : Int) = kMaxDepth - 1 + 1 := by omega
      simp only [TopField.value, TopField.Shallow, Option.some.injEq, forall_eq']
      rw [h.1.brackets_eq, hmax, Bracket.depthAtMost_wrap, ← hmax]
  | method s => simp [TopField.value, TopField.Shallow, TopField.skipped]
  | id n => simp [TopField.value, TopField.Shallow, TopField.skipped]

/-- The depth limit holds exactly where counting one kind of bracket enforces
it. -/
theorem parse_depth_iff {buf : Bytes} {maxBytes : Nat} {msg : MCPMessage}
    (h : MCPMessage.parse (some buf) maxBytes = .ok msg) (hvalid : msg.valid = true) :
    ∃ fields rest, top buf = some (fields, rest) ∧ msg = .ofFields buf fields ∧
      ((∀ f ∈ fields, ∀ v, f.value = some v → Bracket.DepthAtMost (kMaxDepth : Int) v.brackets) ↔
        ∀ f ∈ fields, f.Shallow) := by
  obtain ⟨s, fields, r, hs, -, ht, rfl⟩ := parse_valid h hvalid
  cases hs
  exact ⟨fields, r, ht, rfl, forall₂_congr fun f hf => f.depth_iff (top_sound ht f hf)⟩

theorem parse_depth_iff_of_pair :
    ∃ fields rest, top (ascii "\x7b\"params\":[\x7b\x7d]\x7d") = some (fields, rest) ∧
      ((∀ f ∈ fields, ∀ v, f.value = some v →
          Bracket.DepthAtMost (kMaxDepth : Int) v.brackets) ↔
        ∀ f ∈ fields, f.Shallow) := by
  obtain ⟨fields, rest, htop, -, hiff⟩ := @parse_depth_iff
    (ascii "\x7b\"params\":[\x7b\x7d]\x7d") 20 _ rfl rfl
  exact ⟨fields, rest, htop, hiff⟩

/-- An object inside 64 arrays. -/
theorem parse_accepts_deep :
    let params := List.replicate 64 lbracket ++ ascii "\x7b\x7d" ++ List.replicate 64 rbracket
    let buf := ascii "\x7b\"params\":" ++ params ++ ascii "\x7d"
    MCPMessage.parse (some buf) kDefaultMaxBytes = .ok { MCPMessage.blank buf with
        params := ⟨some 10, 130⟩, valid := true } ∧
      Span.text ⟨some 10, 130⟩ buf = .ok params ∧
      ¬ Bracket.DepthAtMost (kMaxDepth : Int) (brackets .code params) := by
  refine ⟨by decide +kernel, by decide +kernel, fun h => ?_⟩
  have := h (List.replicate 64 (.opening .array) ++ [.opening .object]) (by decide)
  revert this
  decide

end McpToolkit
