import McpToolkit.Json.Fields
import McpToolkit.Json.Lexer
/-!
# What a valid message points at

The slices that the scanners cut out of the input, and from them the spans of a
valid message: inside the input, around the text of a string or of a value, and
in step with the flags.
-/

namespace McpToolkit

open JsonParser Scan

/-- The content of a string literal of the input. -/
def Slice.IsContent (input : Bytes) (s : Slice) : Prop :=
  ∃ t r, s = ⟨t, quote :: r⟩ ∧ quote :: t <:+ input ∧ string t = some r

/-- A value of the input. -/
structure Slice.IsValue (input : Bytes) (v : Slice) : Prop where
  inside : v.start <:+ input
  scans : value v.start = some v.stop

namespace Scan

theorem content_sound {input l r : Bytes} {s : Slice} (hl : l <:+ input)
    (h : content l = some (s, r)) : s.IsContent input := by
  obtain ⟨t, ht, hr, rfl⟩ := content_eq_some.mp h
  exact ⟨t, r, rfl, ht ▸ (blanks_suffix l).trans hl, hr⟩

theorem skipped_sound {input l : Bytes} {v : Slice} (hl : l <:+ input)
    (h : skipped l = some v) : v.IsValue input := by
  obtain ⟨r, hr, rfl⟩ := Option.map_eq_some_iff.mp h
  exact ⟨(blanks_suffix l).trans hl, hr⟩

/-- What holds of every member that can be read from the input holds of all the
members of an object of the input. -/
theorem object_forall {μ : Type} {read : Bytes → Bytes → Option (μ × Bytes)} {P : μ → Prop}
    {input : Bytes} (hshrinks : Shrinks read)
    (hread : ∀ {key l r : Bytes} {x : μ}, l <:+ input → read key l = some (x, r) → P x)
    {l r : Bytes} {ms : List μ} (hl : l <:+ input) (h : object read l = some (ms, r)) :
    ∀ x ∈ ms, P x := by
  have hwithin : ∀ (n : Nat) {l r : Bytes} {ms : List μ}, l <:+ input →
      membersWithin read n l = some (ms, r) → ∀ x ∈ ms, P x := by
    intro n
    induction n with
    | zero =>
        intro l r ms _ h
        cases h
    | succ n ih =>
        intro l r ms hl h
        rcases membersWithin_succ h with ⟨rfl, -⟩ | ⟨x, l', ms', hm, hms, rfl⟩
        · intro x hx
          cases hx
        · obtain ⟨key, l₁, l₂, l₃, hkey, hcolon, hx, -⟩ := member_eq_some.mp hm
          have hl₂ := (symbol_suffix hcolon).trans ((content_suffix hkey).trans hl)
          rw [List.forall_mem_cons]
          exact ⟨hread hl₂ hx, ih ((member_suffix hshrinks hm).trans hl) hms⟩
  obtain ⟨l', hl', hms⟩ := Option.bind_eq_some_iff.mp h
  exact hwithin _ ((symbol_suffix hl').trans hl) hms

/-! ## A value is not empty -/

theorem container_suffix {o c : UInt8} {t r : Bytes} (h : container o c .code 1 t = some r) :
    r <:+ t := by
  obtain ⟨w, rfl⟩ := container_split h
  exact suffix_drop (s := w ++ [c]) (by simp)

theorem literal_suffix {word : Bytes} {b : UInt8} {t r : Bytes}
    (h : literal word (b :: t) = some r) (hword : word ≠ []) : r <:+ t := by
  rw [literal] at h
  split_ifs at h
  cases h
  cases word with
  | nil => exact absurd rfl hword
  | cons w ws => exact List.drop_suffix _ t

theorem number_suffix {b : UInt8} {t r : Bytes} (h : number (b :: t) = some r)
    (hb : b = minus ∨ isdigit b) : r <:+ t := by
  rw [number] at h
  by_cases hminus : b = minus
  · subst hminus
    have htake : takeIf (· = minus) (minus :: t) = (true, t) := rfl
    rw [htake] at h
    dsimp only at h
    split_ifs at h
    cases h
    exact exponent_suffix (fraction_suffix (dropWhile_suffix (List.suffix_refl t)))
  · have htake : takeIf (· = minus) (b :: t) = (false, b :: t) := by
      simp [takeIf, startsWith, hminus]
    rw [htake] at h
    cases h
    rw [List.dropWhile_cons_of_pos (hb.resolve_left hminus)]
    exact exponent_suffix (fraction_suffix (dropWhile_suffix (List.suffix_refl t)))

/-- A value takes its first octet and leaves a suffix of the others. -/
theorem value_cons {l r : Bytes} (h : value l = some r) :
    ∃ b t, l = b :: t ∧ isspace b = false ∧ r <:+ t := by
  cases l with
  | nil => cases h
  | cons b t =>
      refine ⟨b, t, rfl, ?_⟩
      rw [value] at h
      split_ifs at h with hq ho ha ht hf hn hd
      · exact ⟨by subst hq; rfl, string_suffix h⟩
      · exact ⟨by subst ho; rfl, container_suffix h⟩
      · exact ⟨by subst ha; rfl, container_suffix h⟩
      · exact ⟨by subst ht; rfl, literal_suffix h (by decide)⟩
      · exact ⟨by subst hf; rfl, literal_suffix h (by decide)⟩
      · exact ⟨by subst hn; rfl, literal_suffix h (by decide)⟩
      · rw [Bool.or_eq_true, decide_eq_true_eq] at hd
        refine ⟨?_, number_suffix h hd⟩
        rcases hd with rfl | hd
        · rfl
        · exact isspace_of_isdigit hd

theorem digits_le {l r : Bytes} : ∀ {val n : Nat}, val ≤ intMax →
    digits val l = some (n, r) → n ≤ intMax := by
  induction l with
  | nil =>
      intro val n hval h
      cases h
      exact hval
  | cons b t ih =>
      intro val n hval h
      rw [digits] at h
      split_ifs at h with hb hmax
      · exact ih (Nat.le_of_not_lt hmax) h
      · cases h
        exact hval

/-- An integer is in the range of `int`. -/
theorem int_le {l r : Bytes} {n : Int} (h : int l = some (n, r)) : n.natAbs ≤ intMax := by
  rw [int] at h
  dsimp only at h
  split_ifs at h
  all_goals obtain ⟨⟨val, r'⟩, hval, heq⟩ := Option.map_eq_some_iff.mp h
  all_goals cases heq
  · rw [Int.natAbs_neg]
    exact digits_le (Nat.zero_le _) hval
  · exact digits_le (Nat.zero_le _) hval

end Scan

/-- What the scanners guarantee of a member of an error object. -/
def ErrorField.Sound (input : Bytes) : ErrorField → Prop
  | .code n => n.natAbs ≤ intMax
  | .message s => s.IsContent input
  | .other v => v.IsValue input

/-- An object of the input with these members of an error. -/
structure Slice.IsErrorObject (input : Bytes) (v : Slice) (fields : List ErrorField) : Prop where
  inside : v.start <:+ input
  trimmed : blanks v.start = v.start
  scans : object errorField v.start = some (fields, v.stop)

/-- What the scanners guarantee of a member of the top-level object. -/
def TopField.Sound (input : Bytes) : TopField → Prop
  | .method s => s.IsContent input
  | .id n => n.natAbs ≤ intMax
  | .params v => v.IsValue input
  | .result v => v.IsValue input
  | .error fields v => v.IsErrorObject input fields ∧ ∀ f ∈ fields, f.Sound input
  | .other v => v.IsValue input

theorem errorField_sound {input key l r : Bytes} {f : ErrorField} (hl : l <:+ input)
    (h : errorField key l = some (f, r)) : f.Sound input := by
  rw [errorField] at h
  split_ifs at h
  all_goals obtain ⟨y, hy, heq⟩ := Option.map_eq_some_iff.mp h
  all_goals cases heq
  · exact int_le hy
  · exact content_sound hl hy
  · exact skipped_sound hl hy

theorem topField_sound {input key l r : Bytes} {f : TopField} (hl : l <:+ input)
    (h : topField key l = some (f, r)) : f.Sound input := by
  rw [topField] at h
  split_ifs at h
  all_goals obtain ⟨y, hy, heq⟩ := Option.map_eq_some_iff.mp h
  all_goals cases heq
  · exact skipped_sound hl hy
  · exact content_sound hl hy
  · exact int_le hy
  · exact skipped_sound hl hy
  · exact skipped_sound hl hy
  · refine ⟨⟨(blanks_suffix l).trans hl, blanks_blanks l, ?_⟩,
      object_forall errorField_shrinks errorField_sound hl hy⟩
    rw [object, symbol_blanks]
    exact hy
  · exact skipped_sound hl hy

theorem top_sound {s r : Bytes} {fields : List TopField} (h : top s = some (fields, r)) :
    ∀ f ∈ fields, f.Sound s :=
  object_forall topField_shrinks topField_sound (List.suffix_refl s) h

/-! ## The spans of a message -/

namespace Span

/-- No span was found. -/
def IsNull (s : Span) : Prop := s.start = none ∧ s.len = 0

/-- The span is the text of a string literal of the buffer. -/
def IsQuoted (s : Span) (buf : Bytes) : Prop :=
  ∃ pre text post, buf = pre ++ quote :: (text ++ quote :: post) ∧
    s = ⟨some (pre.length + 1), text.length⟩ ∧ QuotesEscaped text

/-- The span is a stretch of the buffer that is not empty and does not start
with white space. -/
def IsValue (s : Span) (buf : Bytes) : Prop :=
  ∃ pre b text post, buf = pre ++ b :: text ++ post ∧
    s = ⟨some pre.length, (b :: text).length⟩ ∧ isspace b = false

end Span

theorem Slice.IsContent.isQuoted {input : Bytes} {s : Slice} (h : s.IsContent input) :
    (s.span input.length).IsQuoted input := by
  obtain ⟨t, r, rfl, ⟨pre, hpre⟩, hr⟩ := h
  obtain ⟨text, rfl, henc⟩ := string_split hr
  refine ⟨pre, text, r, hpre.symm, ?_, henc.quotes⟩
  rw [Slice.span, ← hpre]
  simp only [List.length_append, List.length_cons, Span.mk.injEq, Option.some.injEq]
  omega

theorem Slice.IsValue.isValue {input : Bytes} {v : Slice} (h : v.IsValue input) :
    (v.span input.length).IsValue input := by
  obtain ⟨⟨pre, hpre⟩, hvalue⟩ := h
  obtain ⟨b, t, ht, hb, ⟨text, rfl⟩⟩ := value_cons hvalue
  refine ⟨pre, b, text, v.stop, ?_, ?_, hb⟩
  · rw [← hpre, ht]
    simp
  · rw [Slice.span, ← hpre, ht]
    simp only [List.length_append, List.length_cons, Span.mk.injEq, Option.some.injEq]
    omega

/-! ## The message -/

/-- What holds of the message after any number of members. -/
structure MCPMessage.Coherent (buf : Bytes) (msg : MCPMessage) : Prop where
  method : msg.method.IsNull ∨ msg.method.IsQuoted buf
  params : msg.params.IsNull ∨ msg.params.IsValue buf
  result : msg.result.IsNull ∨ msg.result.IsValue buf
  errorMsg : msg.errorMsg.IsNull ∨ msg.errorMsg.IsQuoted buf
  isRequest : msg.isRequest = true ↔ msg.method.start ≠ none
  hasResult : msg.hasResult = true ↔ msg.result.start ≠ none
  isResponse : msg.isResponse = true ↔ msg.hasResult = true ∨ msg.hasError = true

theorem MCPMessage.blank_coherent (buf : Bytes) : (MCPMessage.blank buf).Coherent buf where
  method := .inl ⟨rfl, rfl⟩
  params := .inl ⟨rfl, rfl⟩
  result := .inl ⟨rfl, rfl⟩
  errorMsg := .inl ⟨rfl, rfl⟩
  isRequest := by simp [MCPMessage.blank]
  hasResult := by simp [MCPMessage.blank]
  isResponse := by simp [MCPMessage.blank]

/-- What every member preserves, all members preserve. -/
theorem fill_induction {μ : Type} {apply : μ → MCPMessage → MCPMessage}
    {P : MCPMessage → Prop} {fields : List μ} {msg : MCPMessage} (hmsg : P msg)
    (hstep : ∀ f ∈ fields, ∀ msg, P msg → P (apply f msg)) : P (fill apply fields msg) := by
  induction fields generalizing msg with
  | nil => exact hmsg
  | cons f fs ih =>
      rw [List.forall_mem_cons] at hstep
      exact ih (hstep.1 msg hmsg) hstep.2

variable {buf : Bytes}

theorem ErrorField.apply_coherent {f : ErrorField} (hf : f.Sound buf) {msg : MCPMessage}
    (h : msg.Coherent buf) : (f.apply buf.length msg).Coherent buf := by
  cases f with
  | code n => exact { h with }
  | message s => exact { h with errorMsg := .inr hf.isQuoted }
  | other v => exact h

theorem TopField.apply_coherent {f : TopField} (hf : f.Sound buf) {msg : MCPMessage}
    (h : msg.Coherent buf) : (f.apply buf.length msg).Coherent buf := by
  cases f with
  | method s =>
      exact { h with method := .inr hf.isQuoted, isRequest := by simp [TopField.apply, Slice.span] }
  | id n => exact { h with }
  | params v => exact { h with params := .inr hf.isValue }
  | result v =>
      exact { h with
        result := .inr hf.isValue
        hasResult := by simp [TopField.apply, Slice.span]
        isResponse := by simp [TopField.apply] }
  | error fields v =>
      have hfill : (fill (ErrorField.apply buf.length) fields msg).Coherent buf :=
        fill_induction h fun f hmem msg h =>
          ErrorField.apply_coherent (hf.2 f hmem) h
      exact { hfill with isResponse := by simp [TopField.apply] }
  | other v => exact h

/-- The parser is safe on arbitrary octets: it returns, without a read or a
cursor outside the buffer, and the spans of a valid message lie in the buffer
around what they are said to point at. -/
theorem parse_safe (jsonStr : Option Bytes) (maxBytes : Nat) :
    ∃ msg, MCPMessage.parse jsonStr maxBytes = .ok msg ∧
      (msg.valid = true → ∃ buf, jsonStr = some buf ∧ msg.Coherent buf) := by
  rcases parse_cases jsonStr maxBytes with ⟨msg, h, hinvalid⟩ | ⟨buf, fields, r, hs, -, ht, h⟩
  · exact ⟨msg, h, fun hvalid => by rw [hinvalid] at hvalid; cases hvalid⟩
  · have hfill := fill_induction (MCPMessage.blank_coherent buf) fun f hmem msg h =>
      TopField.apply_coherent (top_sound ht f hmem) h
    exact ⟨_, h, fun _ => ⟨buf, hs, { hfill with }⟩⟩

end McpToolkit
