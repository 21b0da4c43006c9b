import McpToolkit.Json.Safety
/-!
# What follows a text

A scanner decides by the octets it takes and at most the one after them.  So
the members of an object, and with them the message, do not depend on what
follows the closing brace.
-/

namespace McpToolkit

open JsonParser Scan

namespace Scan

/-- What `f` takes off a text it takes off every text that goes on with the same
octet. -/
def Local (f : Bytes → Option Bytes) : Prop :=
  ∀ ⦃l r : Bytes⦄, f l = some r →
    ∃ w, l = w ++ r ∧ ∀ u, u.head? = r.head? → f (w ++ u) = some u

/-- What `f` takes off the text `l` is not empty, and `f` takes it off every text
that starts so. -/
def ClosedAt (f : Bytes → Option Bytes) (l : Bytes) : Prop :=
  ∀ ⦃r : Bytes⦄, f l = some r → ∃ w, w ≠ [] ∧ l = w ++ r ∧ ∀ u, f (w ++ u) = some u

def Closed (f : Bytes → Option Bytes) : Prop := ∀ l, ClosedAt f l

theorem ClosedAt.local {f : Bytes → Option Bytes} {l r : Bytes} (h : ClosedAt f l)
    (hl : f l = some r) : ∃ w, l = w ++ r ∧ ∀ u, u.head? = r.head? → f (w ++ u) = some u := by
  obtain ⟨w, -, hw, hf⟩ := h hl
  exact ⟨w, hw, fun u _ => hf u⟩

theorem Closed.local {f : Bytes → Option Bytes} (h : Closed f) : Local f :=
  fun l _ hl => (h l).local hl

theorem head?_append_congr {u r : Bytes} (h : u.head? = r.head?) (w : Bytes) :
    (w ++ u).head? = (w ++ r).head? := by
  rw [List.head?_append, List.head?_append, h]

theorem Local.bind {f g : Bytes → Option Bytes} (hf : Local f) (hg : Local g) :
    Local fun l => (f l).bind g := by
  intro l r h
  obtain ⟨s, hs, hr⟩ := Option.bind_eq_some_iff.mp h
  obtain ⟨w, rfl, hw⟩ := hf hs
  obtain ⟨w', rfl, hw'⟩ := hg hr
  refine ⟨w ++ w', (List.append_assoc _ _ _).symm, fun u hu => ?_⟩
  dsimp only
  rw [List.append_assoc, hw _ (head?_append_congr hu w'), Option.bind_some, hw' u hu]

/-! ## The scanners -/

theorem dropWhile_eq_self {q : UInt8 → Bool} {l u : Bytes}
    (h : u.head? = (l.dropWhile q).head?) : u.dropWhile q = u := by
  cases u with
  | nil => rfl
  | cons b t =>
      have hb : q b = false := by
        have := List.head?_dropWhile_not q l
        rw [← h] at this
        simpa using this
      rw [List.dropWhile_cons_of_neg (by rw [hb]; exact Bool.false_ne_true)]

theorem dropWhile_local (q : UInt8 → Bool) : Local fun l => some (l.dropWhile q) := by
  intro l r h
  cases h
  refine ⟨l.takeWhile q, List.takeWhile_append_dropWhile.symm, fun u hu => ?_⟩
  have htake : ∀ b ∈ l.takeWhile q, q b = true := fun b hb => List.mem_takeWhile_imp hb
  rw [Option.some.injEq, List.dropWhile_append_of_pos htake, dropWhile_eq_self hu]

theorem string_closed : Closed string := by
  intro l r h
  obtain ⟨text, rfl, henc⟩ := string_split h
  refine ⟨text ++ [quote], by simp, by simp, fun u => ?_⟩
  rw [List.append_assoc]
  exact string_enclosed henc u

/-- An octet in front of what `g` takes. -/
theorem ClosedAt.cons {f g : Bytes → Option Bytes} {b : UInt8} {t : Bytes} (hg : ClosedAt g t)
    (hf : ∀ u, f (b :: u) = g u) : ClosedAt f (b :: t) := by
  intro r h
  obtain ⟨w, -, rfl, hw⟩ := hg (hf t ▸ h)
  exact ⟨b :: w, List.cons_ne_nil b w, rfl, fun u => (hf (w ++ u)).trans (hw u)⟩

theorem container_closed (o c : UInt8) (mode : Mode) (d : Nat) :
    Closed (container o c mode d) := by
  intro l
  induction l generalizing mode d with
  | nil =>
      intro r h
      cases mode <;> cases h
  | cons b t ih =>
      cases mode with
      | string => exact (ih (Mode.string.next b) d).cons fun u => rfl
      | escape => exact (ih .string d).cons fun u => rfl
      | code =>
          by_cases hq : b = quote
          · subst hq
            exact (ih .string d).cons (container_code_quote o c d)
          have hcode := container_code_cons o c d hq
          by_cases ho : b = o
          · replace hcode := fun u => (hcode u).trans (if_pos ho)
            by_cases hmax : d + 1 > kMaxDepth
            · intro r h
              rw [hcode, if_pos hmax] at h
              cases h
            · exact (ih .code (d + 1)).cons fun u => (hcode u).trans (if_neg hmax)
          · replace hcode := fun u => (hcode u).trans (if_neg ho)
            by_cases hc : b = c
            · replace hcode := fun u => (hcode u).trans (if_pos hc)
              by_cases hone : d = 1
              · intro r h
                rw [hcode, if_pos hone] at h
                cases h
                exact ⟨[b], List.cons_ne_nil _ _, rfl,
                  fun u => (hcode u).trans (if_pos hone)⟩
              · exact (ih .code (d - 1)).cons fun u => (hcode u).trans (if_neg hone)
            · exact (ih .code d).cons fun u => (hcode u).trans (if_neg hc)

theorem literal_closed {word : Bytes} (hword : word ≠ []) : Closed (literal word) := by
  intro l r h
  rw [literal] at h
  split_ifs at h with hp
  obtain ⟨s, rfl⟩ := hp
  cases h
  refine ⟨word, hword, by rw [List.drop_left], fun u => ?_⟩
  rw [literal, if_pos (List.prefix_append word u), List.drop_left]

theorem startsWith_congr {q : UInt8 → Bool} {u r : Bytes} (h : u.head? = r.head?) :
    startsWith q u = startsWith q r := by
  cases u <;> cases r <;> simp_all [startsWith]

theorem startsWith_eq_cons {q : UInt8 → Bool} {l : Bytes} (h : startsWith q l = true) :
    ∃ b t, l = b :: t ∧ ∀ u, startsWith q (b :: u) = true := by
  cases l with
  | nil => cases h
  | cons b t => exact ⟨b, t, rfl, fun _ => h⟩

/-- A scanner that looks at the first octet, and takes it in one of the cases. -/
theorem Local.branch {f g : Bytes → Option Bytes} (q : UInt8 → Bool) (hf : Local f)
    (hg : Local g) : Local fun l => if startsWith q l then f l.tail else g l := by
  intro l r h
  dsimp only at h
  split_ifs at h with hq
  · obtain ⟨b, t, rfl, hb⟩ := startsWith_eq_cons hq
    obtain ⟨w, hw, hu⟩ := hf h
    refine ⟨b :: w, by rw [List.cons_append, ← hw, List.tail_cons], fun u hhead => ?_⟩
    dsimp only
    rw [List.cons_append, hb, if_pos rfl]
    exact hu u hhead
  · obtain ⟨w, rfl, hu⟩ := hg h
    refine ⟨w, rfl, fun u hhead => ?_⟩
    dsimp only
    rw [startsWith_congr (head?_append_congr hhead w), if_neg hq]
    exact hu u hhead

theorem some_local : Local some := by
  intro l r h
  cases h
  exact ⟨[], rfl, fun u _ => rfl⟩

theorem none_local : Local fun _ => none := by
  intro l r h
  cases h

theorem Local.guard {f : Bytes → Option Bytes} (q : UInt8 → Bool) (hf : Local f) :
    Local fun l => if startsWith q l then f l else none := by
  intro l r h
  dsimp only at h
  split_ifs at h with hq
  obtain ⟨w, rfl, hu⟩ := hf h
  refine ⟨w, rfl, fun u hhead => ?_⟩
  dsimp only
  rw [startsWith_congr (head?_append_congr hhead w), if_pos hq]
  exact hu u hhead

theorem Local.of_eq {f g : Bytes → Option Bytes} (hg : Local g) (h : ∀ l, f l = g l) :
    Local f := by
  rwa [funext h]

theorem takeIf_local (q : UInt8 → Bool) : Local fun l => some (takeIf q l).2 :=
  (some_local.branch q some_local).of_eq fun l => by
    rw [takeIf]
    split_ifs <;> rfl

theorem fraction_local : Local fun l => some (fraction l) :=
  ((dropWhile_local isdigit).branch (· = point) some_local).of_eq fun l => by
    rw [fraction]
    split_ifs <;> rfl

theorem exponent_local : Local fun l => some (exponent l) :=
  (((takeIf_local fun b => b = plus || b = minus).bind (dropWhile_local isdigit)).branch
    (fun b => b = lowerE || b = upperE) some_local).of_eq fun l => by
      rw [exponent]
      split_ifs <;> rfl

theorem number_local : Local number := by
  have hrest : Local fun l => some (exponent (fraction (l.dropWhile isdigit))) :=
    ((dropWhile_local isdigit).bind fraction_local).bind exponent_local
  refine ((hrest.guard isdigit).branch (· = minus) hrest).of_eq fun l => ?_
  rw [number, takeIf]
  split_ifs <;> simp_all

/-- A scanner that is `g` on the texts that start with `b`. -/
theorem Local.cons {f g : Bytes → Option Bytes} (hg : Local g) {b : UInt8} {t r : Bytes}
    (hf : ∀ u, f (b :: u) = g (b :: u)) (h : f (b :: t) = some r) (hr : r <:+ t) :
    ∃ w, b :: t = w ++ r ∧ ∀ u, u.head? = r.head? → f (w ++ u) = some u := by
  obtain ⟨w, hw, hu⟩ := hg (hf t ▸ h)
  cases w with
  | nil =>
      have hlen := hr.length_le
      rw [List.nil_append] at hw
      rw [← hw, List.length_cons] at hlen
      omega
  | cons c w =>
      rw [List.cons_append, List.cons.injEq] at hw
      obtain ⟨rfl, hw⟩ := hw
      exact ⟨b :: w, by rw [hw]; rfl, fun u hhead => (hf (w ++ u)).trans (hu u hhead)⟩

theorem value_local : Local value := by
  intro l r h
  obtain ⟨b, t, rfl, -, hr⟩ := value_cons h
  have hvalue : ∀ u, value (b :: u) =
      if b = quote then string u
      else if b = lbrace then container lbrace rbrace .code 1 u
      else if b = lbracket then container lbracket rbracket .code 1 u
      else if b = 0x74 then literal (ascii "true") (b :: u)
      else if b = 0x66 then literal (ascii "false") (b :: u)
      else if b = 0x6E then literal (ascii "null") (b :: u)
      else if b = minus || isdigit b then number (b :: u)
      else none := fun u => rfl
  split_ifs at hvalue
  · exact ((string_closed t).cons hvalue).local h
  · exact ((container_closed _ _ _ _ t).cons hvalue).local h
  · exact ((container_closed _ _ _ _ t).cons hvalue).local h
  · exact (literal_closed (by decide)).local.cons hvalue h hr
  · exact (literal_closed (by decide)).local.cons hvalue h hr
  · exact (literal_closed (by decide)).local.cons hvalue h hr
  · exact number_local.cons hvalue h hr
  · exact none_local.cons hvalue h hr

theorem blanks_local : Local fun l => some (blanks l) := dropWhile_local isspace

theorem symbol_closed (b : UInt8) : Closed (symbol b) := by
  intro l r h
  obtain ⟨w, hw, hu⟩ := blanks_local (congrArg some (symbol_eq_some.mp h))
  refine ⟨w ++ [b], by simp, by simpa using hw, fun u => symbol_eq_some.mpr ?_⟩
  rw [List.append_assoc]
  exact Option.some.inj (hu (b :: u) rfl)

theorem separator_local : Local separator := by
  intro l r h
  rw [separator] at h
  cases hl : blanks l with
  | nil =>
      rw [hl] at h
      cases h
  | cons b t =>
      obtain ⟨w, rfl, hu⟩ := blanks_local (congrArg some hl)
      rw [hl] at h
      dsimp only at h
      split_ifs at h with hcomma hbrace
      · cases h
        refine ⟨w ++ [b], by simp, fun u _ => ?_⟩
        have := Option.some.inj (hu (b :: u) rfl)
        rw [List.append_assoc, List.singleton_append, separator, this]
        exact if_pos hcomma
      · cases h
        refine ⟨w, rfl, fun u hhead => ?_⟩
        obtain ⟨u', rfl⟩ := List.head?_eq_some_iff.mp hhead
        rw [separator, Option.some.inj (hu _ hhead)]
        exact (if_neg hcomma).trans (if_pos hbrace)

/-! ## Reading members -/

section reading

variable {μ : Type} (extend : μ → Bytes → μ)

/-- A reader is local, and its result is one of the text it takes, moved before
the rest by `extend`. -/
def LocalRead (read : Bytes → Option (μ × Bytes)) : Prop :=
  ∀ ⦃l r : Bytes⦄ ⦃x : μ⦄, read l = some (x, r) →
    ∃ w y, l = w ++ r ∧ x = extend y r ∧
      ∀ u, u.head? = r.head? → read (w ++ u) = some (extend y u, u)

variable {extend}

theorem LocalRead.of_eq {f g : Bytes → Option (μ × Bytes)} (hg : LocalRead extend g)
    (h : ∀ l, f l = g l) : LocalRead extend f := by
  rwa [funext h]

theorem LocalRead.map {ν : Type} {extend' : ν → Bytes → ν} {read : Bytes → Option (μ × Bytes)}
    (h : LocalRead extend read) (f : μ → ν) (hf : ∀ x u, f (extend x u) = extend' (f x) u) :
    LocalRead extend' fun l => (read l).map fun x => (f x.1, x.2) := by
  intro l r y hy
  obtain ⟨⟨x, r'⟩, hx, heq⟩ := Option.map_eq_some_iff.mp hy
  cases heq
  obtain ⟨w, x, hw, rfl, hu⟩ := h hx
  refine ⟨w, f x, hw, hf x _, fun u hhead => ?_⟩
  dsimp only
  rw [hu u hhead, Option.map_some, hf]

end reading

end Scan

/-- A slice with more text after it. -/
def Slice.extend (s : Slice) (u : Bytes) : Slice := ⟨s.start ++ u, s.stop ++ u⟩

@[simp] theorem Slice.extend_extend (s : Slice) (u v : Bytes) :
    (s.extend u).extend v = s.extend (u ++ v) := by
  simp [extend]

@[simp] theorem Slice.text_extend (s : Slice) (u : Bytes) : (s.extend u).text = s.text := by
  rw [text, text, extend]
  dsimp only
  rw [List.length_append, List.length_append, Nat.add_sub_add_right, List.take_append_of_le_length]
  exact Nat.sub_le _ _

theorem Slice.span_extend (s : Slice) (u : Bytes) (n : Nat) :
    (s.extend u).span (n + u.length) = s.span n := by
  simp only [span, extend, List.length_append, Nat.add_sub_add_right]

namespace Scan

theorem skipped_local :
    LocalRead Slice.extend fun l => (skipped l).map fun v => (v, v.stop) := by
  intro l r v h
  obtain ⟨v', hv, heq⟩ := Option.map_eq_some_iff.mp h
  cases heq
  obtain ⟨r, hr, rfl⟩ := Option.map_eq_some_iff.mp hv
  obtain ⟨w, hl, hw⟩ := blanks_local (l := l) rfl
  obtain ⟨w', hb, hw'⟩ := value_local hr
  rw [hb] at hl hw
  refine ⟨w ++ w', ⟨w', []⟩, by rw [hl, List.append_assoc], by rw [hb]; rfl, fun u hhead => ?_⟩
  have hblanks := Option.some.inj (hw (w' ++ u) (head?_append_congr hhead w'))
  dsimp only
  rw [List.append_assoc, skipped, hblanks, hw' u hhead]
  rfl

theorem content_local : LocalRead Slice.extend content := by
  intro l r s h
  obtain ⟨t, ht, hr, rfl⟩ := content_eq_some.mp h
  obtain ⟨w, rfl, hu⟩ := blanks_local (congrArg some ht)
  obtain ⟨text, rfl, henc⟩ := string_split hr
  refine ⟨w ++ quote :: text ++ [quote], ⟨text ++ [quote], [quote]⟩, by simp,
    by simp [Slice.extend], fun u _ => content_eq_some.mpr ?_⟩
  refine ⟨text ++ quote :: u, ?_, string_enclosed henc u, by simp [Slice.extend]⟩
  have := Option.some.inj (hu (quote :: (text ++ quote :: u)) rfl)
  simpa using this

theorem digits_local (val : Nat) : LocalRead (fun n _ => n) (digits val) := by
  intro l
  induction l generalizing val with
  | nil =>
      intro r n h
      cases h
      refine ⟨[], val, rfl, rfl, fun u hhead => ?_⟩
      rw [List.nil_append, List.head?_eq_none_iff.mp hhead]
      rfl
  | cons b t ih =>
      intro r n h
      rw [digits] at h
      split_ifs at h with hb hmax
      · obtain ⟨w, n, rfl, rfl, hu⟩ := ih _ h
        refine ⟨b :: w, n, rfl, rfl, fun u hhead => ?_⟩
        rw [List.cons_append, digits, if_pos hb, if_neg hmax, hu u hhead]
      · cases h
        refine ⟨[], val, rfl, rfl, fun u hhead => ?_⟩
        obtain ⟨u', rfl⟩ := List.head?_eq_some_iff.mp hhead
        rw [List.nil_append, digits, if_neg hb]

theorem int_local : LocalRead (fun n _ => n) int := by
  intro l r n h
  obtain ⟨w, hl, hw⟩ := blanks_local (l := l) rfl
  rw [int, takeIf] at h
  by_cases hminus : startsWith (· = minus) (blanks l)
  · obtain ⟨b, t, hb, hstart⟩ := startsWith_eq_cons hminus
    rw [if_pos hminus, hb] at h
    obtain ⟨hdigit, h⟩ := Option.ite_none_right_eq_some.mp h
    rw [List.tail_cons] at hdigit h
    obtain ⟨⟨v, r'⟩, hv, heq⟩ := Option.map_eq_some_iff.mp h
    cases heq
    obtain ⟨w', v, rfl, rfl, hu⟩ := digits_local 0 hv
    refine ⟨w ++ b :: w', _, by rw [hl, hb]; simp, rfl, fun u hhead => ?_⟩
    have hblanks := Option.some.inj (hw (b :: (w' ++ u)) (by rw [hb]; rfl))
    rw [List.append_assoc, List.cons_append, int, takeIf, hblanks, if_pos (hstart _)]
    dsimp only [List.tail_cons]
    rw [startsWith_congr (head?_append_congr hhead w'), if_pos hdigit, hu u hhead]
    rfl
  · rw [if_neg hminus] at h
    obtain ⟨hdigit, h⟩ := Option.ite_none_right_eq_some.mp h
    obtain ⟨⟨v, r'⟩, hv, heq⟩ := Option.map_eq_some_iff.mp h
    cases heq
    obtain ⟨w', v, hb, rfl, hu⟩ := digits_local 0 hv
    refine ⟨w ++ w', _, by rw [hl, hb]; simp, rfl, fun u hhead => ?_⟩
    have hhead' := head?_append_congr hhead w'
    have hblanks := Option.some.inj (hw (w' ++ u) (hb ▸ hhead'))
    rw [hb, ← startsWith_congr hhead'] at hminus hdigit
    rw [List.append_assoc, int, takeIf, hblanks, if_neg hminus]
    dsimp only
    rw [if_pos hdigit, hu u hhead]
    rfl

/-! ## Objects -/

section members

variable {μ : Type} {extend : μ → Bytes → μ} {read : Bytes → Bytes → Option (μ × Bytes)}

theorem symbol_rbrace_of_content {l r : Bytes} {s : Slice} (h : content l = some (s, r)) :
    symbol rbrace l = none := by
  obtain ⟨t, ht, -, -⟩ := content_eq_some.mp h
  rw [symbol, ht]
  rfl

theorem member_local (hextend : ∀ x a b, extend (extend x a) b = extend x (a ++ b))
    (hread : ∀ key, LocalRead extend (read key)) : LocalRead extend (member read) := by
  intro l r x h
  obtain ⟨key, l₁, l₂, l₃, hkey, hcolon, hx, hsep⟩ := member_eq_some.mp h
  obtain ⟨w₁, k, rfl, rfl, hu₁⟩ := content_local hkey
  obtain ⟨w₂, -, rfl, hu₂⟩ := symbol_closed colon _ hcolon
  obtain ⟨w₃, y, rfl, rfl, hu₃⟩ := hread _ hx
  obtain ⟨w₄, rfl, hu₄⟩ := separator_local hsep
  refine ⟨w₁ ++ w₂ ++ w₃ ++ w₄, extend y w₄, by simp, (hextend y w₄ r).symm,
    fun u hhead => ?_⟩
  have h₄ := head?_append_congr hhead w₄
  have h₃ := head?_append_congr h₄ w₃
  have hkey' := hu₁ _ (head?_append_congr h₃ w₂)
  have hx' := hu₃ _ h₄
  rw [Slice.text_extend] at hx'
  rw [hextend]
  simp only [List.append_assoc]
  exact member_eq_some.mpr ⟨_, _, _, _, hkey', hu₂ _, by rwa [Slice.text_extend],
    hu₄ u hhead⟩

/-- The members of an object end with its closing brace, and what follows the
brace does not matter. -/
theorem membersWithin_local (hextend : ∀ x a b, extend (extend x a) b = extend x (a ++ b))
    (hread : ∀ key, LocalRead extend (read key)) {n : Nat} :
    ∀ {l r : Bytes} {ms : List μ}, membersWithin read n l = some (ms, r) →
      ∃ (w : Bytes) (ms₀ : List μ), l = w ++ rbrace :: r ∧ ms = ms₀.map (extend · r) ∧
        ∀ u, membersWithin read n (w ++ rbrace :: u) = some (ms₀.map (extend · u), u) := by
  induction n with
  | zero =>
      intro l r ms h
      cases h
  | succ n ih =>
      intro l r ms h
      rcases membersWithin_succ h with ⟨rfl, hb⟩ | ⟨x, l', ms', hm, hms, rfl⟩
      · obtain ⟨w, hw, hu⟩ := blanks_local (congrArg some (symbol_eq_some.mp hb))
        refine ⟨w, [], hw, rfl, fun u => ?_⟩
        have := symbol_eq_some.mpr (Option.some.inj (hu (rbrace :: u) rfl))
        rw [membersWithin, this]
        rfl
      · obtain ⟨w, y, rfl, rfl, hu⟩ := member_local hextend hread hm
        obtain ⟨w', ms₀, rfl, rfl, hu'⟩ := ih hms
        refine ⟨w ++ w', extend y (w' ++ [rbrace]) :: ms₀, by simp, by simp [hextend],
          fun u => ?_⟩
        have hm' := hu (w' ++ rbrace :: u) (by cases w' <;> rfl)
        obtain ⟨key, l₁, l₂, l₃, hkey, -⟩ := member_eq_some.mp hm'
        rw [List.append_assoc, membersWithin, symbol_rbrace_of_content hkey]
        simp [hm', hu' u, hextend]

theorem object_local (hshrinks : Shrinks read)
    (hextend : ∀ x a b, extend (extend x a) b = extend x (a ++ b))
    (hread : ∀ key, LocalRead extend (read key)) {l r : Bytes} {ms : List μ}
    (h : object read l = some (ms, r)) :
    ∃ (ws w : Bytes) (ms₀ : List μ), l = ws ++ (lbrace :: w ++ rbrace :: r) ∧
      ms = ms₀.map (extend · r) ∧
      ∀ u, blanks (ws ++ (lbrace :: w ++ rbrace :: u)) = lbrace :: w ++ rbrace :: u ∧
        object read (ws ++ (lbrace :: w ++ rbrace :: u)) = some (ms₀.map (extend · u), u) := by
  obtain ⟨l', hl', hms⟩ := Option.bind_eq_some_iff.mp h
  obtain ⟨ws, rfl, hu⟩ := blanks_local (congrArg some (symbol_eq_some.mp hl'))
  obtain ⟨w, ms₀, rfl, rfl, hu'⟩ := membersWithin_local hextend hread hms
  refine ⟨ws, w, ms₀, rfl, rfl, fun u => ?_⟩
  have hblanks := Option.some.inj (hu (lbrace :: (w ++ rbrace :: u)) rfl)
  refine ⟨hblanks, ?_⟩
  rw [object, List.cons_append, symbol_eq_some.mpr hblanks, Option.bind_some]
  exact members_of_within hshrinks (hu' u)

end members

end Scan

/-! ## The members of a message -/

def ErrorField.extend : ErrorField → Bytes → ErrorField
  | .code n, _ => .code n
  | .message s, u => .message (s.extend u)
  | .other v, u => .other (v.extend u)

theorem ErrorField.extend_extend (f : ErrorField) (u v : Bytes) :
    (f.extend u).extend v = f.extend (u ++ v) := by
  cases f <;> simp [extend]

theorem ErrorField.apply_extend (f : ErrorField) (n : Nat) (u : Bytes) :
    (f.extend u).apply (n + u.length) = f.apply n := by
  funext msg
  cases f <;> simp [extend, apply, Slice.span_extend]

def TopField.extend : TopField → Bytes → TopField
  | .method s, u => .method (s.extend u)
  | .id n, _ => .id n
  | .params v, u => .params (v.extend u)
  | .result v, u => .result (v.extend u)
  | .error fields v, u => .error (fields.map (·.extend u)) (v.extend u)
  | .other v, u => .other (v.extend u)

theorem TopField.extend_extend (f : TopField) (u v : Bytes) :
    (f.extend u).extend v = f.extend (u ++ v) := by
  cases f <;> simp [extend, ErrorField.extend_extend]

theorem fill_map {μ : Type} {extend : μ → μ} {apply apply' : μ → MCPMessage → MCPMessage}
    (h : ∀ f, apply (extend f) = apply' f) (fields : List μ) (msg : MCPMessage) :
    fill apply (fields.map extend) msg = fill apply' fields msg := by
  simp only [fill, List.foldl_map, h]

theorem TopField.apply_extend (f : TopField) (n : Nat) (u : Bytes) :
    (f.extend u).apply (n + u.length) = f.apply n := by
  funext msg
  cases f <;> simp [extend, apply, Slice.span_extend,
    fill_map (ErrorField.apply_extend · n u)]

namespace Scan

theorem errorField_local (key : Bytes) : LocalRead ErrorField.extend (errorField key) := by
  by_cases hcode : key = ascii "code"
  · exact (int_local.map .code fun _ _ => rfl).of_eq fun l => by
      rw [errorField, if_pos hcode]
  by_cases hmessage : key = ascii "message"
  · exact (content_local.map .message fun _ _ => rfl).of_eq fun l => by
      rw [errorField, if_neg hcode, if_pos hmessage]
  · exact (skipped_local.map .other fun _ _ => rfl).of_eq fun l => by
      rw [errorField, if_neg hcode, if_neg hmessage, Option.map_map]
      rfl

/-- The error object with the slice of its text. -/
theorem error_local : LocalRead TopField.extend fun l =>
    (object errorField l).map fun (fields, r) => (.error fields ⟨blanks l, r⟩, r) := by
  intro l r f h
  obtain ⟨⟨fields, r'⟩, hobj, heq⟩ := Option.map_eq_some_iff.mp h
  cases heq
  obtain ⟨ws, w, fields, rfl, rfl, hu⟩ :=
    object_local errorField_shrinks ErrorField.extend_extend errorField_local hobj
  refine ⟨ws ++ (lbrace :: w ++ [rbrace]), .error fields ⟨lbrace :: w ++ [rbrace], []⟩, by simp,
    ?_, fun u _ => ?_⟩
  · rw [(hu _).1]
    simp [TopField.extend, Slice.extend]
  · obtain ⟨hblanks, hobj'⟩ := hu u
    have hw : ws ++ (lbrace :: w ++ [rbrace]) ++ u = ws ++ (lbrace :: w ++ rbrace :: u) := by
      simp
    dsimp only
    rw [hw, hobj', hblanks]
    simp [TopField.extend, Slice.extend]

theorem topField_local (key : Bytes) : LocalRead TopField.extend (topField key) := by
  have hother : LocalRead TopField.extend fun l =>
      (skipped l).map fun v => (TopField.other v, v.stop) :=
    (skipped_local.map .other fun _ _ => rfl).of_eq fun l => by
      rw [Option.map_map]
      rfl
  unfold topField
  split_ifs
  · exact hother
  · exact content_local.map TopField.method fun _ _ => rfl
  · exact int_local.map TopField.id fun _ _ => rfl
  · exact (skipped_local.map .params fun _ _ => rfl).of_eq fun l => by
      rw [Option.map_map]
      rfl
  · exact (skipped_local.map .result fun _ _ => rfl).of_eq fun l => by
      rw [Option.map_map]
      rfl
  · exact error_local
  · exact hother

/-- The members of a message end with the closing brace of the object, and what
follows the brace does not matter. -/
theorem top_local {l r : Bytes} {fields : List TopField} (h : top l = some (fields, r)) :
    ∃ (w : Bytes) (fields₀ : List TopField), l = w ++ rbrace :: r ∧
      fields = fields₀.map (·.extend r) ∧
      ∀ u, top (w ++ rbrace :: u) = some (fields₀.map (·.extend u), u) := by
  obtain ⟨ws, w, fields₀, rfl, rfl, hu⟩ :=
    object_local topField_shrinks TopField.extend_extend topField_local h
  refine ⟨ws ++ lbrace :: w, fields₀, by simp, rfl, fun u => ?_⟩
  rw [List.append_assoc]
  exact (hu u).2

end Scan

/-! ## The message -/

/-- The message as one of another buffer. -/
def MCPMessage.over (msg : MCPMessage) (buf : Bytes) : MCPMessage :=
  { msg with rawInput := some buf, rawLen := buf.length }

theorem fill_over {μ : Type} {apply : μ → MCPMessage → MCPMessage} {buf : Bytes}
    (h : ∀ f msg, apply f (msg.over buf) = (apply f msg).over buf) (fields : List μ) :
    ∀ msg : MCPMessage, fill apply fields (msg.over buf) = (fill apply fields msg).over buf := by
  induction fields with
  | nil => exact fun msg => rfl
  | cons f fs ih =>
      intro msg
      calc fill apply (f :: fs) (msg.over buf)
          = fill apply fs (apply f (msg.over buf)) := rfl
        _ = fill apply fs ((apply f msg).over buf) := by rw [h]
        _ = (fill apply (f :: fs) msg).over buf := ih (apply f msg)

theorem ErrorField.apply_over (f : ErrorField) (n : Nat) (msg : MCPMessage) (buf : Bytes) :
    f.apply n (msg.over buf) = (f.apply n msg).over buf := by
  cases f <;> rfl

theorem TopField.apply_over (f : TopField) (n : Nat) (msg : MCPMessage) (buf : Bytes) :
    f.apply n (msg.over buf) = (f.apply n msg).over buf := by
  cases f with
  | error fields v =>
      simp only [apply, fill_over fun f msg => ErrorField.apply_over f n msg buf]
      rfl
  | _ => rfl

/-- The fields of a message depend on the text through the closing brace of its
object alone. -/
theorem MCPMessage.ofFields_extend (text u : Bytes) (fields : List TopField) :
    MCPMessage.ofFields (text ++ u) (fields.map (·.extend u)) =
      (MCPMessage.ofFields text fields).over (text ++ u) := by
  have hblank : MCPMessage.blank (text ++ u) = (MCPMessage.blank text).over (text ++ u) := rfl
  rw [MCPMessage.ofFields, hblank, List.length_append,
    fill_map (TopField.apply_extend · text.length u),
    fill_over fun f msg => TopField.apply_over f text.length msg (text ++ u)]
  rfl

/-- The parser stops at the closing brace of the top-level object: whatever
follows it, within the limit, the text is accepted with the same fields. -/
theorem parse_ignores_rest {buf : Bytes} {maxBytes : Nat} {msg : MCPMessage}
    (h : MCPMessage.parse (some buf) maxBytes = .ok msg) (hvalid : msg.valid = true) :
    ∃ text rest p msg', buf = text ++ rest ∧ text.getLast? = some rbrace ∧
      parseMembers topMember ⟨buf, 0, maxBytes⟩ (.blank buf) = .ok (true, p, msg') ∧
      p.pos = text.length ∧
      ∀ rest' maxBytes', (text ++ rest').length ≤ maxBytes' →
        MCPMessage.parse (some (text ++ rest')) maxBytes' = .ok (msg.over (text ++ rest')) := by
  obtain ⟨s, fields, r, hs, hmax, ht, rfl⟩ := parse_valid h hvalid
  cases hs
  have hobj := parseMembers_before (m := maxBytes) topField_shrinks topMember_reads
    (List.suffix_refl buf) (.blank buf)
  rw [before_self] at hobj
  obtain ⟨w, fields₀, rfl, rfl, hu⟩ := top_local ht
  rw [← top, ht] at hobj
  have hsplit : ∀ u, w ++ rbrace :: u = (w ++ [rbrace]) ++ u := fun u => by simp
  refine ⟨w ++ [rbrace], r, _, _, hsplit r, by simp, hobj.2, ?_, fun rest' maxBytes' hmax' => ?_⟩
  · rw [before_pos]
    simp only [List.length_append, List.length_cons, List.length_nil]
    omega
  · have hparse := parse_refines hmax'
    rw [← hsplit, hu rest', hsplit] at hparse
    rw [hsplit r, hparse, MCPMessage.ofFields_extend, MCPMessage.ofFields_extend]
    rfl

theorem parse_ignores_rest_of_pair :
    ∃ text rest p msg', ascii "\x7b\x7d \x7b\x7d" = text ++ rest ∧
      text.getLast? = some rbrace ∧
      parseMembers topMember ⟨ascii "\x7b\x7d \x7b\x7d", 0, 9⟩
        (.blank (ascii "\x7b\x7d \x7b\x7d")) = .ok (true, p, msg') ∧
      p.pos = text.length ∧
      ∀ rest' maxBytes', (text ++ rest').length ≤ maxBytes' →
        MCPMessage.parse (some (text ++ rest')) maxBytes' =
          .ok (MCPMessage.over { valid := true } (text ++ rest')) :=
  @parse_ignores_rest _ 9 (.over { valid := true } (ascii "\x7b\x7d \x7b\x7d")) rfl rfl

/-- A second request on the line is dropped. -/
theorem parse_accepts_second_object :
    let buf := ascii "\x7b\"id\":1\x7d\x7b\"id\":2\x7d"
    MCPMessage.parse (some buf) kDefaultMaxBytes =
        .ok (MCPMessage.over { id := some 1, valid := true } buf) ∧
      (∃ msg', parseMembers topMember ⟨buf, 0, kDefaultMaxBytes⟩ (.blank buf) =
        .ok (true, ⟨buf, 8, kDefaultMaxBytes⟩, msg')) ∧
      buf.drop 8 = ascii "\x7b\"id\":2\x7d" ∧ (buf.drop 8).all isspace = false :=
  ⟨rfl, ⟨_, rfl⟩, by decide, by decide⟩

end McpToolkit
