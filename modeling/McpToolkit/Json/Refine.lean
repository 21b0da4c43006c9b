import McpToolkit.Json.Scan
/-!
# The parser computes the scanners

The cursor of a `JsonParser` always stands before a suffix of the input.  For
each member function there is one lemma: from `before r` it returns without a
fault, with the result that `McpToolkit.Scan` computes from `r`, and leaves the
cursor before what the scanner leaves unread.
-/

namespace McpToolkit

namespace JsonParser

variable {input : Bytes} {m : Nat}

/-- The parser with its cursor before the suffix `r` of the input. -/
def before (input : Bytes) (m : Nat) (r : Bytes) : JsonParser :=
  ⟨input, input.length - r.length, m⟩

@[simp] theorem before_input (r : Bytes) : (before input m r).input = input := rfl

@[simp] theorem before_len (r : Bytes) : (before input m r).len = input.length := rfl

@[simp] theorem before_passes (r : Bytes) :
    (before input m r).passes = input.length + 1 := rfl

theorem before_pos (r : Bytes) :
    (before input m r).pos = input.length - r.length := rfl

theorem before_self (input : Bytes) (m : Nat) :
    before input m input = ⟨input, 0, m⟩ := by
  simp [before]

theorem drop_before {r : Bytes} (h : r <:+ input) :
    input.drop (before input m r).pos = r :=
  (List.suffix_iff_eq_drop.mp h).symm

theorem pos_lt_cons {b : UInt8} {t : Bytes} (h : b :: t <:+ input) :
    (before input m (b :: t)).pos < input.length := by
  have hle := h.length_le
  rw [List.length_cons] at hle
  rw [before_pos, List.length_cons]
  omega

theorem not_le_cons {b : UInt8} {t : Bytes} (h : b :: t <:+ input) :
    ¬ input.length ≤ (before input m (b :: t)).pos :=
  Nat.not_le_of_lt (pos_lt_cons h)

theorem not_ge_cons {b : UInt8} {t : Bytes} (h : b :: t <:+ input) :
    ¬ (before input m (b :: t)).pos ≥ (before input m (b :: t)).len :=
  not_le_cons h

@[simp] theorem pos_nil : (before input m []).pos = input.length := by
  simp [before_pos]

theorem peek_before {b : UInt8} {t : Bytes} (h : b :: t <:+ input) :
    (before input m (b :: t)).peek = .ok b :=
  byteAt_of_drop (drop_before h)

theorem advance_append {s t : Bytes} (h : s ++ t <:+ input) :
    (before input m (s ++ t)).advance s.length = .ok (before input m t) := by
  have hle := h.length_le
  rw [List.length_append] at hle
  rw [advance, before_pos, before_len, if_pos (by rw [List.length_append]; omega)]
  simp only [before, List.length_append, Except.ok.injEq, JsonParser.mk.injEq, true_and, and_true]
  omega

theorem advance_before {b : UInt8} {t : Bytes} (h : b :: t <:+ input) :
    (before input m (b :: t)).advance 1 = .ok (before input m t) :=
  advance_append (s := [b]) h

/-- A scanner that reports only success has left the cursor before `o`. -/
def Returns (input : Bytes) (m : Nat) (run : Except Fault (Bool × JsonParser))
    (o : Option Bytes) : Prop :=
  match o with
  | some r => r <:+ input ∧ run = .ok (true, before input m r)
  | none => ∃ r, r <:+ input ∧ run = .ok (false, before input m r)

/-- A scanner with a result has returned the one in `o` and has left the cursor
before the rest in `o`. -/
def Yields {β : Type} (input : Bytes) (m : Nat)
    (run : Except Fault (Bool × β × JsonParser)) (o : Option (β × Bytes)) : Prop :=
  match o with
  | some (x, r) => r <:+ input ∧ run = .ok (true, x, before input m r)
  | none => ∃ x r, r <:+ input ∧ run = .ok (false, x, before input m r)

/-! ## White space and digits -/

theorem skipWhile_before {q : UInt8 → Bool} {r : Bytes} (h : r <:+ input) :
    (before input m r).skipWhile q =
      .ok (before input m (r.dropWhile q)) := by
  refine loop_eq (before input m) (· <:+ input) List.length
    (f := fun r => before input m (r.dropWhile q)) ?_ h
    (Nat.lt_succ_of_le h.length_le)
  intro r h
  cases r with
  | nil => exact .inr ⟨before input m [], by simp [skipWhilePass]; rfl, rfl⟩
  | cons b t =>
      by_cases hb : q b
      · refine .inl ⟨t, ?_, suffix_tail h, by simp, ?_⟩
        · simp [skipWhilePass, pos_lt_cons h, peek_before h, advance_before h, hb]
        · rintro a rfl
          simp only [List.dropWhile_cons_of_pos hb]
      · refine .inr ⟨before input m (b :: t), ?_, ?_⟩
        · simp [skipWhilePass, pos_lt_cons h, peek_before h, hb]
          rfl
        · simp only [List.dropWhile_cons_of_neg hb]

theorem skipWs_before {r : Bytes} (h : r <:+ input) :
    (before input m r).skipWs = .ok (before input m (Scan.blanks r)) :=
  skipWhile_before h

theorem skipDigits_before {r : Bytes} (h : r <:+ input) :
    (before input m r).skipDigits =
      .ok (before input m (r.dropWhile isdigit)) :=
  skipWhile_before h

theorem tail_suffix {r : Bytes} (h : r <:+ input) : r.tail <:+ input :=
  (List.tail_suffix r).trans h

theorem takeIf_suffix {q : UInt8 → Bool} {r : Bytes} (h : r <:+ input) :
    (Scan.takeIf q r).2 <:+ input := by
  rw [Scan.takeIf]
  split
  · exact tail_suffix h
  · exact h

theorem skipIf_before {q : UInt8 → Bool} {r : Bytes} (h : r <:+ input) :
    (before input m r).skipIf q =
      .ok ((Scan.takeIf q r).1, before input m (Scan.takeIf q r).2) := by
  cases r with
  | nil =>
      simp [skipIf, Scan.takeIf, Scan.startsWith]
      rfl
  | cons b t =>
      by_cases hb : q b
      · simp [skipIf, pos_lt_cons h, peek_before h, advance_before h, hb, Scan.takeIf,
          Scan.startsWith]
      · simp [skipIf, pos_lt_cons h, peek_before h, hb, Scan.takeIf, Scan.startsWith]
        rfl

/-! ## Strings -/

/-- How the loop to the closing quote ends: on that quote, at the end of the
input, or with a truncated escape. -/
def StringEnd (input : Bytes) (m : Nat) (r : Bytes) (a : Bool × JsonParser) : Prop :=
  match Scan.string r with
  | some r' => quote :: r' <:+ input ∧ a = (true, before input m (quote :: r'))
  | none => a = (true, before input m []) ∨
      ∃ t, t <:+ input ∧ a = (false, before input m t)

theorem stringLoop_before {r : Bytes} (h : r <:+ input) :
    ∃ a, loop stringPass .passes (input.length + 1) (before input m r) = .ok a ∧
      StringEnd input m r a := by
  refine loop_spec (before input m) (· <:+ input) List.length
    (R := StringEnd input m) ?_ h (Nat.lt_succ_of_le h.length_le)
  intro r h
  cases r with
  | nil => exact .inr ⟨(true, before input m []), by simp [stringPass]; rfl, .inl rfl⟩
  | cons b t =>
      by_cases hq : b = quote
      · subst hq
        refine .inr ⟨(true, before input m (quote :: t)), ?_, ?_⟩
        · simp [stringPass, pos_lt_cons h, peek_before h]
          rfl
        · rw [StringEnd, Scan.string_quote]
          exact ⟨h, rfl⟩
      · by_cases hb : b = backslash
        · subst hb
          have ht := suffix_tail h
          cases t with
          | nil =>
              refine .inr ⟨(false, before input m []), ?_, ?_⟩
              · simp [stringPass, pos_lt_cons h, peek_before h, advance_before h]
                rfl
              · rw [StringEnd, Scan.string_truncated]
                exact .inr ⟨[], ht, rfl⟩
          | cons e t =>
              have hlt : t.length < (backslash :: e :: t).length :=
                Nat.lt_succ_of_lt (Nat.lt_succ_self _)
              refine .inl ⟨t, ?_, suffix_tail ht, hlt, fun a ha => ?_⟩
              · simp [stringPass, pos_lt_cons h, peek_before h, advance_before h, hq,
                  not_le_cons ht, advance_before ht]
              · rwa [StringEnd, Scan.string_escape]
        · refine .inl ⟨t, ?_, suffix_tail h, by simp, fun a ha => ?_⟩
          · simp [stringPass, pos_lt_cons h, peek_before h, advance_before h, hq, hb]
          · rwa [StringEnd, Scan.string_cons hq hb]

theorem skipString_before {r : Bytes} (h : r <:+ input) :
    Returns input m (before input m r).skipString (Scan.quoted r) := by
  cases r with
  | nil => exact ⟨[], h, by simp [skipString]; rfl⟩
  | cons b t =>
      by_cases hq : b = quote
      · subst hq
        obtain ⟨a, ha, hend⟩ := stringLoop_before (m := m) (suffix_tail h)
        have hrun : (before input m (quote :: t)).skipString = (do
            if !a.1 then return (false, a.2)
            if a.2.pos ≥ a.2.len then return (false, a.2)
            return (true, ← a.2.advance 1)) := by
          simp [skipString, not_le_cons h, peek_before h, advance_before h, ha]
        rw [hrun, Scan.quoted, if_pos rfl]
        cases hs : Scan.string t with
        | some r' =>
            rw [StringEnd, hs] at hend
            obtain ⟨hr', rfl⟩ := hend
            refine ⟨suffix_tail hr', ?_⟩
            simp [not_le_cons hr', advance_before hr']
        | none =>
            rw [StringEnd, hs] at hend
            rcases hend with rfl | ⟨t', ht', rfl⟩
            · exact ⟨[], List.nil_suffix, by simp; rfl⟩
            · exact ⟨t', ht', rfl⟩
      · rw [Scan.quoted, if_neg hq]
        refine ⟨b :: t, h, ?_⟩
        simp [skipString, not_le_cons h, peek_before h, hq]
        rfl

/-! ## Containers -/

/-- What the container loop is to return from depth `d` before `r`. -/
def containerRest (o c : UInt8) (d : Nat) (r : Bytes) : Option Bytes :=
  if d = 0 then some r else Scan.container o c .code d r

/-- The results of the container loop from depth `i.1` before `i.2`. -/
def ContainerEnd (input : Bytes) (m : Nat) (o c : UInt8)
    (i : Nat × Bytes) (a : Bool × JsonParser) : Prop :=
  Returns input m (.ok a) (containerRest o c i.1 i.2)

section container

variable {o c : UInt8} {d : Nat}

theorem containerRest_pos (hd : 0 < d) (r : Bytes) :
    containerRest o c d r = Scan.container o c .code d r :=
  if_neg (Nat.ne_of_gt hd)

theorem containerRest_string (hd : 0 < d) (t : Bytes) :
    containerRest o c d (quote :: t) =
      (Scan.string t).bind (containerRest o c d) := by
  rw [containerRest_pos hd, Scan.container_code_quote, Scan.container_string]
  congr 1
  exact funext fun r => (containerRest_pos hd r).symm

theorem containerRest_cons (hd : 0 < d) {b : UInt8} (hq : b ≠ quote) (t : Bytes) :
    containerRest o c d (b :: t) =
      if b = o then
        if d + 1 > kMaxDepth then none else containerRest o c (d + 1) t
      else if b = c then containerRest o c (d - 1) t
      else containerRest o c d t := by
  have hone : d - 1 = 0 ↔ d = 1 := by omega
  rw [containerRest_pos hd, Scan.container_code_cons _ _ _ hq, containerRest_pos hd,
    containerRest_pos (Nat.succ_pos d), containerRest]
  simp only [hone]

theorem skipContainerPass_string {t : Bytes} (h : quote :: t <:+ input) (hd : 0 < d) :
    skipContainerPass o c (before input m (quote :: t), d) = (do
      let (ok, p) ← (before input m (quote :: t)).skipString
      if !ok then return .done (false, p)
      return .next (p, d)) := by
  simp [skipContainerPass, pos_lt_cons h, hd, peek_before h]

theorem skipContainerPass_cons {b : UInt8} {t : Bytes} (h : b :: t <:+ input) (hd : 0 < d)
    (hq : b ≠ quote) :
    skipContainerPass o c (before input m (b :: t), d) =
      if b = o then
        if d + 1 > kMaxDepth then .ok (.done (false, before input m t))
        else .ok (.next (before input m t, d + 1))
      else if b = c then .ok (.next (before input m t, d - 1))
      else .ok (.next (before input m t, d)) := by
  simp [skipContainerPass, pos_lt_cons h, hd, peek_before h, advance_before h, hq]
  rfl

theorem skipContainerPass_meets {r : Bytes} (h : r <:+ input) :
    PassMeets (fun i : Nat × Bytes => (before input m i.2, i.1))
      (fun i => i.2 <:+ input) (fun i => i.2.length)
      (skipContainerPass o c)
      (ContainerEnd input m o c) (d, r) := by
  rcases Nat.eq_zero_or_pos d with rfl | hd
  · exact .done _ _ _ (a := (true, before input m r))
      (by simp [skipContainerPass]; rfl) ⟨h, rfl⟩
  cases r with
  | nil =>
      refine .done _ _ _ (a := (false, before input m []))
        (by simp [skipContainerPass, Nat.ne_of_gt hd]; rfl) ?_
      rw [ContainerEnd, containerRest_pos hd]
      exact ⟨[], h, rfl⟩
  | cons b t =>
      have ht := suffix_tail h
      by_cases hq : b = quote
      · subst hq
        have hrest := containerRest_string (c := c) (o := o) hd t
        have hs := skipString_before (m := m) h
        rw [Scan.quoted, if_pos rfl] at hs
        cases hstr : Scan.string t with
        | none =>
            rw [hstr] at hs
            obtain ⟨r', hr', hrun⟩ := hs
            refine .done _ _ _ (a := (false, before input m r')) ?_ ?_
            · rw [skipContainerPass_string h hd, hrun]
              rfl
            · rw [ContainerEnd, hrest, hstr]
              exact ⟨r', hr', rfl⟩
        | some r' =>
            rw [hstr] at hs
            refine .next _ _ _ (j := (d, r')) ?_ hs.1 ?_ fun a ha => ?_
            · rw [skipContainerPass_string h hd, hs.2]
              rfl
            · have := (Scan.string_suffix hstr).length_le
              exact Nat.lt_succ_of_le this
            · rw [ContainerEnd, hrest, hstr]
              exact ha
      · have hrest := containerRest_cons (c := c) (o := o) hd hq t
        have hpass := skipContainerPass_cons (m := m) (c := c)
          (o := o) h hd hq
        by_cases ho : b = o
        · rw [if_pos ho] at hrest hpass
          by_cases hmax : d + 1 > kMaxDepth
          · rw [if_pos hmax] at hrest hpass
            refine .done _ _ _ hpass ?_
            rw [ContainerEnd, hrest]
            exact ⟨t, ht, rfl⟩
          · rw [if_neg hmax] at hrest hpass
            refine .next _ _ _ (j := (d + 1, t)) hpass ht (by simp) fun a ha => ?_
            rwa [ContainerEnd, hrest]
        · rw [if_neg ho] at hrest hpass
          by_cases hc : b = c
          · rw [if_pos hc] at hrest hpass
            refine .next _ _ _ (j := (d - 1, t)) hpass ht (by simp) fun a ha => ?_
            rwa [ContainerEnd, hrest]
          · rw [if_neg hc] at hrest hpass
            refine .next _ _ _ (j := (d, t)) hpass ht (by simp) fun a ha => ?_
            rwa [ContainerEnd, hrest]

theorem containerLoop_before {r : Bytes} (h : r <:+ input) :
    Returns input m
      (loop (skipContainerPass o c) .passes (input.length + 1)
        (before input m r, d))
      (containerRest o c d r) := by
  obtain ⟨a, ha, hend⟩ := loop_spec (e := Fault.passes) _ _ _
    (fun i hi => skipContainerPass_meets (m := m) hi) (i := (d, r)) h
    (Nat.lt_succ_of_le h.length_le)
  rw [ha]
  exact hend

theorem skipContainer_before {t : Bytes} (h : o :: t <:+ input) :
    Returns input m ((before input m (o :: t)).skipContainer o c)
      (Scan.container o c .code 1 t) := by
  have hloop := containerLoop_before (m := m) (o := o)
    (c := c) (d := 1) (suffix_tail h)
  rw [containerRest_pos Nat.one_pos] at hloop
  simpa [skipContainer, not_le_cons h, peek_before h, advance_before h] using hloop

end container

/-! ## Literals and numbers -/

theorem skipLiteral_before {word r : Bytes} (h : r <:+ input) :
    Returns input m ((before input m r).skipLiteral word)
      (Scan.literal word r) := by
  have hle := h.length_le
  have hlen : input.length - (before input m r).pos = r.length := by
    rw [before_pos]
    omega
  by_cases hshort : r.length < word.length
  · have hnot : ¬ word <+: r := fun hp => absurd hp.length_le (Nat.not_le_of_lt hshort)
    rw [Scan.literal, if_neg hnot]
    refine ⟨r, h, ?_⟩
    simp [skipLiteral, hlen, hshort]
    rfl
  have hread : bytesAt input (before input m r).pos word.length =
      .ok (r.take word.length) := by
    refine bytesAt_of_drop (t := r.drop word.length) ?_ (by simp; omega) (by rw [before_pos]; omega)
    rw [drop_before h, List.take_append_drop]
  by_cases hp : word <+: r
  · obtain ⟨t, rfl⟩ := hp
    rw [Scan.literal, if_pos (List.prefix_append word t), List.drop_left]
    refine ⟨(List.suffix_append word t).trans h, ?_⟩
    have hshort' : ¬ word.length + t.length < word.length := by omega
    simp [skipLiteral, hlen, hread, hshort', advance_append h]
  · have htake : r.take word.length ≠ word := fun heq =>
      hp (List.prefix_iff_eq_take.mpr heq.symm)
    rw [Scan.literal, if_neg hp]
    refine ⟨r, h, ?_⟩
    simp [skipLiteral, hlen, hshort, hread, htake]
    rfl

theorem skipFraction_before {r : Bytes} (h : r <:+ input) :
    (before input m r).skipFraction = .ok (before input m (Scan.fraction r)) := by
  by_cases hs : Scan.startsWith (· = point) r
  · simp [skipFraction, skipIf_before h, Scan.takeIf, Scan.fraction, hs,
      skipDigits_before (tail_suffix h)]
  · simp [skipFraction, skipIf_before h, Scan.takeIf, Scan.fraction, hs]
    rfl

theorem skipExponent_before {r : Bytes} (h : r <:+ input) :
    (before input m r).skipExponent = .ok (before input m (Scan.exponent r)) := by
  by_cases hs : Scan.startsWith (fun b => b = lowerE || b = upperE) r
  · have ht := tail_suffix h
    have hsign := skipIf_before (m := m)
      (q := fun b => b = plus || b = minus) ht
    rw [skipExponent, skipIf_before h, ok_bind, Scan.takeIf, if_pos hs, Scan.exponent, if_pos hs]
    simp only [if_true, hsign, ok_bind, skipDigits_before (takeIf_suffix ht)]
  · rw [skipExponent, skipIf_before h, ok_bind, Scan.takeIf, if_neg hs, Scan.exponent, if_neg hs]
    rfl

theorem fraction_suffix {r : Bytes} (h : r <:+ input) : Scan.fraction r <:+ input := by
  rw [Scan.fraction]
  split
  · exact dropWhile_suffix (tail_suffix h)
  · exact h

theorem exponent_suffix {r : Bytes} (h : r <:+ input) : Scan.exponent r <:+ input := by
  rw [Scan.exponent]
  split
  · exact dropWhile_suffix (takeIf_suffix (tail_suffix h))
  · exact h

theorem skipNumber_before {r : Bytes} (h : r <:+ input) :
    Returns input m (before input m r).skipNumber (Scan.number r) := by
  have hs := takeIf_suffix (q := (· = minus)) h
  rw [Scan.number]
  generalize htake : Scan.takeIf (· = minus) r = signed at hs
  obtain ⟨negative, s⟩ := signed
  have hs₁ := dropWhile_suffix (q := isdigit) hs
  have hs₂ := fraction_suffix hs₁
  have htail : (do
      let p ← (before input m s).skipDigits
      let p ← p.skipFraction
      return (true, ← p.skipExponent)) =
        (.ok (true, before input m
          (Scan.exponent (Scan.fraction (s.dropWhile isdigit)))) : Except Fault _) := by
    rw [skipDigits_before hs, ok_bind, skipFraction_before hs₁, ok_bind,
      skipExponent_before hs₂, ok_bind]
    rfl
  rw [skipNumber, skipIf_before h, ok_bind, htake]
  cases negative with
  | false => exact ⟨exponent_suffix hs₂, htail⟩
  | true =>
      cases s with
      | nil => exact ⟨[], hs, by simp; rfl⟩
      | cons b t =>
          by_cases hb : isdigit b
          · have hstart : Scan.startsWith isdigit (b :: t) = true := hb
            simp only [hstart, Bool.not_true, Bool.and_false]
            refine ⟨exponent_suffix hs₂, ?_⟩
            rw [← htail]
            simp [not_le_cons hs, peek_before hs, hb]
          · have hstart : Scan.startsWith isdigit (b :: t) = false := by
              simpa [Scan.startsWith] using hb
            simp only [hstart, Bool.not_false, Bool.and_self]
            refine ⟨b :: t, hs, ?_⟩
            simp [not_le_cons hs, peek_before hs, hb]
            rfl

/-! ## Values -/

theorem span_before {s t : Bytes} (hs : s <:+ input) (ht : t <:+ input) :
    (⟨some (before input m s).pos,
      (before input m t).pos - (before input m s).pos⟩ : Span) =
        Slice.span ⟨s, t⟩ input.length := by
  have hs := hs.length_le
  have ht := ht.length_le
  simp only [Slice.span, before_pos, Span.mk.injEq, true_and]
  omega

theorem skipBranch_before {c : UInt8} {t : Bytes} (h : c :: t <:+ input) :
    Returns input m ((before input m (c :: t)).skipBranch c)
      (Scan.value (c :: t)) := by
  rw [skipBranch, Scan.value]
  split_ifs with hq hb hk ht hf hn hd
  · subst hq
    have hs := skipString_before (m := m) h
    rwa [Scan.quoted, if_pos rfl] at hs
  · subst hb
    exact skipContainer_before h
  · subst hk
    exact skipContainer_before h
  · exact skipLiteral_before h
  · exact skipLiteral_before h
  · exact skipLiteral_before h
  · exact skipNumber_before h
  · exact ⟨c :: t, h, rfl⟩

theorem skipValue_before {r : Bytes} (h : r <:+ input) (out : Span) :
    Yields input m ((before input m r).skipValue out)
      ((Scan.skipped r).map fun v => (v.span input.length, v.stop)) := by
  have hb := dropWhile_suffix (q := isspace) h
  rw [skipValue, skipWs_before h, ok_bind, Scan.skipped]
  change Scan.blanks r <:+ input at hb
  cases hr : Scan.blanks r with
  | nil =>
      refine ⟨out, [], List.nil_suffix, ?_⟩
      simp
      rfl
  | cons c t =>
      rw [hr] at hb
      have hbranch := skipBranch_before (m := m) hb
      cases hv : Scan.value (c :: t) with
      | none =>
          rw [hv] at hbranch
          obtain ⟨r', hr', hrun⟩ := hbranch
          refine ⟨out, r', hr', ?_⟩
          simp [not_le_cons hb, peek_before hb, hrun]
          rfl
      | some r' =>
          rw [hv] at hbranch
          refine ⟨hbranch.1, ?_⟩
          rw [← span_before (m := m) hb hbranch.1]
          simp [not_le_cons hb, peek_before hb, hbranch.2]
          rfl

theorem parseString_before {r : Bytes} (h : r <:+ input) (str : Span) :
    Yields input m ((before input m r).parseString str)
      ((Scan.content r).map fun s => (s.1.span input.length, s.2)) := by
  have hb := dropWhile_suffix (q := isspace) h
  rw [parseString, skipWs_before h, ok_bind, Scan.content]
  change Scan.blanks r <:+ input at hb
  cases hr : Scan.blanks r with
  | nil =>
      refine ⟨str, [], List.nil_suffix, ?_⟩
      simp
      rfl
  | cons c t =>
      rw [hr] at hb
      by_cases hq : c = quote
      · subst hq
        obtain ⟨a, ha, hend⟩ := stringLoop_before (m := m) (suffix_tail hb)
        simp only [if_true]
        cases hs : Scan.string t with
        | some r' =>
            rw [StringEnd, hs] at hend
            obtain ⟨hr', rfl⟩ := hend
            refine ⟨suffix_tail hr', ?_⟩
            rw [← span_before (m := m) (suffix_tail hb) hr']
            simp [not_le_cons hb, peek_before hb, advance_before hb, ha, not_le_cons hr',
              advance_before hr']
        | none =>
            rw [StringEnd, hs] at hend
            rcases hend with rfl | ⟨t', ht', rfl⟩
            · refine ⟨{ str with start := some (before input m t).pos }, [],
                List.nil_suffix, ?_⟩
              simp [not_le_cons hb, peek_before hb, advance_before hb, ha]
              rfl
            · refine ⟨{ str with start := some (before input m t).pos }, t', ht', ?_⟩
              simp [not_le_cons hb, peek_before hb, advance_before hb, ha]
              rfl
      · simp only [hq, if_false]
        refine ⟨str, c :: t, hb, ?_⟩
        simp [not_le_cons hb, peek_before hb, hq]
        rfl

/-! ## Integers -/

/-- The results of the digit loop with value `i.1` before `i.2`. -/
def DigitsEnd (input : Bytes) (m : Nat) (i : Nat × Bytes)
    (a : Option Nat × JsonParser) : Prop :=
  match Scan.digits i.1 i.2 with
  | some (v, r) => r <:+ input ∧ a = (some v, before input m r)
  | none => ∃ r, r <:+ input ∧ a = (none, before input m r)

theorem longLong_digit {val : Nat} (hval : val ≤ intMax) (b : UInt8) :
    longLong (val * 10 + digitValue b) = .ok (val * 10 + digitValue b) := by
  have hb : digitValue b < 256 := Nat.lt_of_le_of_lt (Nat.sub_le _ _) b.toNat_lt
  rw [intMax] at hval
  exact if_pos (by omega)

theorem parseIntPass_meets {val : Nat} {r : Bytes} (h : r <:+ input) (hval : val ≤ intMax) :
    PassMeets (fun i : Nat × Bytes => (before input m i.2, i.1))
      (fun i => i.2 <:+ input ∧ i.1 ≤ intMax) (fun i => i.2.length)
      parseIntPass (DigitsEnd input m) (val, r) := by
  cases r with
  | nil =>
      exact .done _ _ _ (a := (some val, before input m []))
        (by simp [parseIntPass]; rfl) ⟨h, rfl⟩
  | cons b t =>
      have ht := suffix_tail h
      by_cases hb : isdigit b
      · have hpass : parseIntPass (before input m (b :: t), val) =
            if val * 10 + digitValue b > intMax then
              .ok (.done (none, before input m (b :: t)))
            else .ok (.next (before input m t, val * 10 + digitValue b)) := by
          simp [parseIntPass, pos_lt_cons h, peek_before h, hb, longLong_digit hval,
            advance_before h]
          rfl
        by_cases hmax : val * 10 + digitValue b > intMax
        · refine .done _ _ _ (hpass.trans (if_pos hmax)) ?_
          rw [DigitsEnd, Scan.digits, if_pos hb, if_pos hmax]
          exact ⟨b :: t, h, rfl⟩
        · refine .next _ _ _ (j := (val * 10 + digitValue b, t)) (hpass.trans (if_neg hmax))
            ⟨ht, Nat.le_of_not_lt hmax⟩ (by simp) fun a ha => ?_
          rw [DigitsEnd, Scan.digits, if_pos hb, if_neg hmax]
          exact ha
      · refine .done _ _ _ (a := (some val, before input m (b :: t))) ?_ ?_
        · simp [parseIntPass, pos_lt_cons h, peek_before h, hb]
          rfl
        · rw [DigitsEnd, Scan.digits, if_neg hb]
          exact ⟨h, rfl⟩

theorem parseInt_before {r : Bytes} (h : r <:+ input) (num : Int) :
    Yields input m ((before input m r).parseInt num) (Scan.int r) := by
  have hb := dropWhile_suffix (q := isspace) h
  rw [parseInt, skipWs_before h, ok_bind, Scan.int]
  change Scan.blanks r <:+ input at hb
  cases hr : Scan.blanks r with
  | nil =>
      refine ⟨num, [], List.nil_suffix, ?_⟩
      simp
      rfl
  | cons c u =>
      rw [hr] at hb
      have hs := takeIf_suffix (q := (· = minus)) hb
      rw [if_neg (not_ge_cons hb), skipIf_before hb, ok_bind]
      generalize Scan.takeIf (· = minus) (c :: u) = signed at hs
      obtain ⟨negative, s⟩ := signed
      cases s with
      | nil =>
          refine ⟨num, [], List.nil_suffix, ?_⟩
          simp
          rfl
      | cons b t =>
          by_cases hd : isdigit b
          · obtain ⟨⟨val, p⟩, ha, hend⟩ := loop_spec (e := Fault.passes) _ _ _
              (fun i hi => parseIntPass_meets (m := m) hi.1 hi.2)
              (i := (0, b :: t)) ⟨hs, Nat.zero_le _⟩ (Nat.lt_succ_of_le hs.length_le)
            have hstart : Scan.startsWith isdigit (b :: t) = true := hd
            simp only [hstart, if_true, if_neg (not_ge_cons hs), peek_before hs, ok_bind, hd,
              Bool.not_true, Bool.false_eq_true, if_false, before_passes]
            rw [DigitsEnd] at hend
            cases hdig : Scan.digits 0 (b :: t) with
            | none =>
                rw [hdig] at hend
                obtain ⟨r', hr', heq⟩ := hend
                cases heq
                exact ⟨num, r', hr', by rw [ha]; rfl⟩
            | some vr =>
                rw [hdig] at hend
                obtain ⟨hr', heq⟩ := hend
                cases heq
                exact ⟨hr', by rw [ha]; rfl⟩
          · have hstart : Scan.startsWith isdigit (b :: t) = false := by
              simpa [Scan.startsWith] using hd
            simp only [hstart]
            refine ⟨num, b :: t, hs, ?_⟩
            simp [not_le_cons hs, peek_before hs, hd]
            rfl

end JsonParser

end McpToolkit
