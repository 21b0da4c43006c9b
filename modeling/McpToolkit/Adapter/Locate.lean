import McpToolkit.Adapter.Search
/-!
# The functions compute the search

A pointer of `extract_string` or `extract_value_span` stands in front of a
suffix of the text.  From there they return what `McpToolkit.Search` computes
from that suffix, and they read nothing outside the text.
-/

namespace McpToolkit

namespace MCPAdapter

open Scan Search

variable {json key : Bytes}

/-- The index of a suffix of the text. -/
def pos (json l : Bytes) : Nat := json.length - l.length

theorem pos_append {s t : Bytes} (h : s ++ t <:+ json) :
    pos json t = pos json (s ++ t) + s.length := by
  have hle := h.length_le
  unfold pos
  rw [List.length_append] at *
  omega

theorem pos_tail {b : UInt8} {t : Bytes} (h : b :: t <:+ json) :
    pos json t = pos json (b :: t) + 1 :=
  pos_append (s := [b]) h

theorem pos_add_length {l : Bytes} (h : l <:+ json) : pos json l + l.length = json.length := by
  have hle := h.length_le
  unfold pos
  omega

@[simp] theorem pos_nil : pos json [] = json.length := rfl

@[simp] theorem pos_self (json : Bytes) : pos json json = 0 := by
  unfold pos
  omega

theorem pos_lt {b : UInt8} {t : Bytes} (h : b :: t <:+ json) :
    pos json (b :: t) < json.length := by
  have := pos_add_length h
  rw [List.length_cons] at this
  omega

theorem pos_le (l : Bytes) : pos json l ≤ json.length := by
  unfold pos
  omega

theorem drop_pos {l : Bytes} (h : l <:+ json) : json.drop (pos json l) = l :=
  (List.suffix_iff_eq_drop.mp h).symm

theorem byteAt_pos {b : UInt8} {t : Bytes} (h : b :: t <:+ json) :
    byteAt json (pos json (b :: t)) = .ok b :=
  byteAt_of_drop (drop_pos h)

theorem bytesAt_pos {s t : Bytes} (h : s ++ t <:+ json) :
    bytesAt json (pos json (s ++ t)) s.length = .ok s :=
  bytesAt_of_drop (drop_pos h) rfl (pos_le _)

/-! ## Loops -/

theorem skipWhile_pos {q : UInt8 → Bool} {l : Bytes} (h : l <:+ json) :
    skipWhile json q (pos json l) = .ok (pos json (l.dropWhile q)) := by
  refine loop_eq (pos json) (· <:+ json) List.length (f := fun l => pos json (l.dropWhile q)) ?_ h
    (Nat.lt_succ_of_le h.length_le)
  intro l h
  cases l with
  | nil =>
      refine .done _ _ _ (a := json.length) ?_ rfl
      simp [skipWhilePass, pure_ok]
  | cons b t =>
      have hread := byteAt_pos h
      have hlt := pos_lt h
      by_cases hb : q b
      · refine .next _ _ _ (j := t) ?_ (suffix_tail h) (Nat.lt_succ_self _) ?_
        · simp [skipWhilePass, hlt, hread, hb, pos_tail h, pure_ok]
        · rintro a rfl
          simp only [List.dropWhile_cons_of_pos hb]
      · refine .done _ _ _ (a := pos json (b :: t)) ?_ ?_
        · simp [skipWhilePass, hlt, hread, hb, pure_ok]
        · simp only [List.dropWhile_cons_of_neg hb]

/-- Where the closing quote of a string stands, or the end of the text. -/
def closePos (json l : Bytes) : Nat := ((string l).map fun r => pos json (quote :: r)).getD json.length

/-- A pass that stops at a quote and steps over escapes. -/
structure StopsAtQuote (json : Bytes) (pass : Nat → Except Fault (Pass Nat Nat)) : Prop where
  ended : pass json.length = .ok (.done json.length)
  closed : ∀ t, quote :: t <:+ json →
    pass (pos json (quote :: t)) = .ok (.done (pos json (quote :: t)))
  escaped : ∀ e t, backslash :: e :: t <:+ json →
    pass (pos json (backslash :: e :: t)) = .ok (.next (pos json t))
  dangling : [backslash] <:+ json → pass (pos json [backslash]) = .ok (.next json.length)
  other : ∀ b t, b ≠ quote → b ≠ backslash → b :: t <:+ json →
    pass (pos json (b :: t)) = .ok (.next (pos json t))

theorem StopsAtQuote.loop_pos {pass : Nat → Except Fault (Pass Nat Nat)}
    (hpass : StopsAtQuote json pass) {l : Bytes} (h : l <:+ json) :
    loop pass .passes (passes json) (pos json l) = .ok (closePos json l) := by
  refine loop_eq (pos json) (· <:+ json) List.length (f := closePos json) ?_ h
    (Nat.lt_succ_of_le h.length_le)
  intro l h
  cases l with
  | nil => exact .done _ _ _ hpass.ended rfl
  | cons b t =>
      by_cases hq : b = quote
      · subst hq
        refine .done _ _ _ (hpass.closed t h) ?_
        simp [closePos]
      · by_cases hb : b = backslash
        · subst hb
          cases t with
          | nil =>
              refine .next _ _ _ (j := []) (hpass.dangling h) List.nil_suffix
                (Nat.lt_succ_self _) ?_
              rintro a rfl
              rfl
          | cons e t =>
              refine .next _ _ _ (j := t) (hpass.escaped e t h) (suffix_tail (suffix_tail h)) ?_ ?_
              · simp only [List.length_cons]
                omega
              · rintro a rfl
                rw [closePos, closePos, string_escape]
        · refine .next _ _ _ (j := t) (hpass.other b t hq hb h) (suffix_tail h)
            (Nat.lt_succ_self _) ?_
          rintro a rfl
          rw [closePos, closePos, string_cons hq hb]

theorem contentPass_stops (json : Bytes) : StopsAtQuote json (contentPass json) where
  ended := by simp [contentPass, pure_ok]
  closed t h := by simp [contentPass, pos_lt h, byteAt_pos h, pure_ok]
  escaped e t h := by
    have htail := pos_tail h
    have hin : pos json (backslash :: e :: t) + 1 < json.length := by
      rw [← htail]
      exact pos_lt (suffix_tail h)
    have hq : backslash ≠ quote := by decide
    simp [contentPass, pos_lt h, byteAt_pos h, hin, hq, htail, pos_tail (suffix_tail h), pure_ok]
  dangling h := by
    have hend : pos json [backslash] + 1 = json.length := (pos_tail h).symm
    have hq : backslash ≠ quote := by decide
    simp [contentPass, pos_lt h, byteAt_pos h, hend, hq, pure_ok]
  other b t hq hb h := by
    simp [contentPass, pos_lt h, byteAt_pos h, hq, hb, pos_tail h, pure_ok]

theorem content_pos {l : Bytes} (h : l <:+ json) :
    loop (contentPass json) .passes (passes json) (pos json l) = .ok (closePos json l) :=
  (contentPass_stops json).loop_pos h

/-! ## The search -/

theorem memchr_none {l : Bytes} (h : l <:+ json) (hl : quote ∉ l) :
    memchr json (pos json l) quote (json.length - pos json l) = .ok none := by
  have hlen : json.length - pos json l = l.length := by
    have := pos_add_length h
    omega
  have hall : json.drop (pos json l) = l ++ [] := by
    rw [drop_pos h, List.append_nil]
  rw [memchr, hlen, bytesAt_of_drop hall rfl (pos_le l), ok_bind, List.idxOf?_eq_none_iff.mpr hl]
  rfl

theorem memchr_some {w t : Bytes} (h : w ++ quote :: t <:+ json) (hw : quote ∉ w) :
    memchr json (pos json (w ++ quote :: t)) quote (json.length - pos json (w ++ quote :: t)) =
      .ok (some (pos json (quote :: t))) := by
  have hlen : json.length - pos json (w ++ quote :: t) = (w ++ quote :: t).length := by
    have := pos_add_length h
    omega
  have hall : json.drop (pos json (w ++ quote :: t)) = (w ++ quote :: t) ++ [] := by
    rw [drop_pos h, List.append_nil]
  rw [memchr, hlen, bytesAt_of_drop hall rfl (pos_le _), ok_bind,
    idxOf?_append_cons hw, pos_append h]
  rfl

/-- The text up to the next quote, if there is one. -/
theorem quote_cases (l : Bytes) : quote ∉ l ∨ ∃ w t, l = w ++ quote :: t ∧ quote ∉ w := by
  by_cases h : quote ∈ l
  · exact .inr (List.eq_append_cons_of_mem h)
  · exact .inl h

/-- What can stand behind a quote: too little, another word, the key without a
closing quote, or the key with one. -/
theorem keyed_cases (key t : Bytes) : t.length ≤ key.length ∨
    (∃ s u, t = s ++ u ∧ s.length = key.length ∧ s ≠ key) ∨
    (∃ b u, t = key ++ b :: u ∧ b ≠ quote) ∨ ∃ r, t = key ++ quote :: r := by
  by_cases hlen : t.length ≤ key.length
  · exact .inl hlen
  · by_cases hkey : t.take key.length = key
    · obtain ⟨b, u, hu⟩ := List.exists_cons_of_length_pos (l := t.drop key.length) (by
        rw [List.length_drop]
        omega)
      have hsplit : t = key ++ b :: u := by
        rw [← hu]
        nth_rewrite 1 [← List.take_append_drop key.length t]
        rw [hkey]
      by_cases hb : b = quote
      · exact .inr (.inr (.inr ⟨u, by rw [hsplit, hb]⟩))
      · exact .inr (.inr (.inl ⟨b, u, hsplit, hb⟩))
    · refine .inr (.inl ⟨t.take key.length, t.drop key.length, ?_, ?_, hkey⟩)
      · exact (List.take_append_drop _ _).symm
      · rw [List.length_take]
        omega

theorem keyed_other {s u : Bytes} (hlen : s.length = key.length) (hs : s ≠ key) :
    keyed key (s ++ u) = none := by
  by_contra hne
  obtain ⟨r, hr⟩ := Option.ne_none_iff_exists'.mp hne
  exact hs (List.append_inj_left (keyed_eq_some hr) hlen)

theorem keyed_open {b : UInt8} {u : Bytes} (hb : b ≠ quote) : keyed key (key ++ b :: u) = none := by
  by_contra hne
  obtain ⟨r, hr⟩ := Option.ne_none_iff_exists'.mp hne
  have := List.append_cancel_left (keyed_eq_some hr)
  exact hb (List.head_eq_of_cons_eq this)

theorem keyed_short {t : Bytes} (h : t.length ≤ key.length) : keyed key t = none := by
  by_contra hne
  obtain ⟨r, hr⟩ := Option.ne_none_iff_exists'.mp hne
  have := keyed_length hr
  omega

theorem skipBlanks_pos {l : Bytes} (h : l <:+ json) :
    skipBlanks json (pos json l) = .ok (pos json (l.dropWhile isBlank)) :=
  skipWhile_pos h

theorem skipPast_pos {l : Bytes} (b : UInt8) (h : l <:+ json) :
    skipPast json b (pos json l) = .ok ((after b l).map (pos json)) := by
  have hl := dropWhile_suffix (q := isBlank) h
  unfold skipPast after
  rw [skipBlanks_pos h, ok_bind]
  cases hblank : l.dropWhile isBlank with
  | nil =>
      rw [pos_nil, if_pos le_rfl]
      rfl
  | cons c t =>
      rw [hblank] at hl
      have hlt := (pos_lt hl).not_ge
      by_cases hc : c = b
      · subst hc
        simp [byteAt_pos hl, hlt, pos_tail hl, pure_ok]
      · simp [byteAt_pos hl, hc, pure_ok]

theorem after_suffix {b : UInt8} {l r : Bytes} (h : after b l = some r) : r <:+ l := by
  rw [after] at h
  split at h
  · cases h
  · next c t hblank =>
      split_ifs at h
      cases h
      exact suffix_tail (hblank ▸ List.dropWhile_suffix isBlank)

/-- What a search returns: the span of what it found, or what it was given. -/
def found (json : Bytes) (out : Span) : Option Slice → Bool × Span
  | some s => (true, s.span json.length)
  | none => (false, out)

theorem pos_lt_append {w t : Bytes} (h : w ++ quote :: t <:+ json) :
    pos json (w ++ quote :: t) < json.length := by
  have := pos_lt (suffix_drop h)
  have := pos_append h
  omega

section search

variable {α β : Type} (key : Bytes) (missing : α)
variable (behind : Nat → Nat → Except Fault (Pass Nat α))

theorem searchPass_none {l : Bytes} (h : l <:+ json) (hl : quote ∉ l) :
    searchPass json key missing behind (pos json l) = .ok (.done missing) := by
  cases l with
  | nil => simp [searchPass, pure_ok]
  | cons b t => simp [searchPass, pos_lt h, memchr_none h hl, pure_ok]

/-- One pass tries the next quote. -/
theorem searchPass_some {w t : Bytes} (h : w ++ quote :: t <:+ json) (hw : quote ∉ w) :
    searchPass json key missing behind (pos json (w ++ quote :: t)) =
      if t.length ≤ key.length then .ok (.done missing)
      else match keyed key t with
        | none => .ok (.next (pos json t))
        | some r => behind (pos json t) (pos json r) := by
  have hq := suffix_drop h
  have ht := suffix_tail hq
  have htail := pos_tail hq
  have hend := pos_add_length ht
  unfold searchPass
  rw [if_pos (pos_lt_append h), memchr_some h hw, ok_bind]
  dsimp only
  rw [← htail]
  by_cases hshort : t.length ≤ key.length
  · rw [if_pos (by omega), if_pos hshort]
    rfl
  rw [if_neg (by omega), if_neg hshort]
  rcases keyed_cases key t with hle | ⟨s, u, rfl, hlen, hs⟩ | ⟨b, u, rfl, hb⟩ | ⟨r, rfl⟩
  · exact absurd hle hshort
  · have hbytes := bytesAt_pos ht
    rw [hlen] at hbytes
    simp [hbytes, hs, keyed_other hlen hs, pure_ok]
  · have hopen := byteAt_pos (suffix_drop ht)
    have hkey := pos_append ht
    simp [bytesAt_pos ht, ← hkey, hopen, hb, keyed_open hb, pure_ok]
  · have hopen := byteAt_pos (suffix_drop ht)
    have hlt := (pos_lt (suffix_drop ht)).not_ge
    have hkey := pos_append ht
    simp [bytesAt_pos ht, ← hkey, hopen, hlt, ← pos_tail (suffix_drop ht), keyed_append]

variable {key missing behind}

theorem atQuotes_keyed_short {g : Bytes → Option β} {t : Bytes} (h : t.length ≤ key.length) :
    atQuotes (fun t => (keyed key t).bind g) t = none := by
  refine atQuotes_of_short (fun t x hx => ?_) h
  obtain ⟨r, hr, -⟩ := Option.bind_eq_some_iff.mp hx
  exact keyed_length hr

/-- Leave with a result, or go on at `next` without one. -/
def leaveOr (next : Nat) : Option α → Pass Nat α
  | none => .next next
  | some a => .done a

/-- The search finds the first quote behind which there are the key and what the
function wants behind it. -/
theorem search_pos {g : Bytes → Option β} {out : β → α}
    (hbehind : ∀ {t r : Bytes}, r <:+ json → behind (pos json t) (pos json r) =
      .ok (leaveOr (pos json t) ((g r).map out))) :
    loop (searchPass json key missing behind) .passes (passes json) 0 =
      .ok (((atQuotes (fun t => (keyed key t).bind g) json).map out).getD missing) := by
  rw [← pos_self json]
  refine loop_eq (pos json) (· <:+ json) List.length
    (f := fun l => ((atQuotes (fun t => (keyed key t).bind g) l).map out).getD missing) ?_
    (List.suffix_refl json) (Nat.lt_succ_self _)
  intro l h
  rcases quote_cases l with hl | ⟨w, t, rfl, hw⟩
  · refine .done _ _ _ (searchPass_none key missing behind h hl) ?_
    have := atQuotes_append (f := fun t => (keyed key t).bind g) hl []
    rw [List.append_nil, atQuotes_nil] at this
    rw [this]
    rfl
  · have hq := suffix_drop h
    have ht := suffix_tail hq
    have hpass := searchPass_some key missing behind h hw
    have hfind := atQuotes_append (f := fun t => (keyed key t).bind g) hw (quote :: t)
    rw [atQuotes_quote] at hfind
    have hlt : t.length < (w ++ quote :: t).length := by
      rw [List.length_append, List.length_cons]
      omega
    by_cases hshort : t.length ≤ key.length
    · rw [if_pos hshort] at hpass
      refine .done _ _ _ hpass ?_
      rw [hfind, keyed_short hshort, atQuotes_keyed_short hshort]
      rfl
    · rw [if_neg hshort] at hpass
      cases hkey : keyed key t with
      | none =>
          rw [hkey] at hpass
          refine .next _ _ _ (j := t) hpass ht hlt fun a ha => ?_
          rw [ha, hfind, hkey, Option.bind_none, Option.none_or]
      | some r =>
          have hr : r <:+ json := by
            rw [keyed_eq_some hkey] at ht
            exact suffix_tail (suffix_drop ht)
          rw [hkey] at hpass
          dsimp only at hpass
          rw [hbehind hr] at hpass
          cases hg : g r with
          | none =>
              rw [hg] at hpass
              refine .next _ _ _ (j := t) hpass ht hlt fun a ha => ?_
              rw [ha, hfind, hkey, Option.bind_some, hg, Option.none_or]
          | some x =>
              rw [hg] at hpass
              refine .done _ _ _ hpass ?_
              rw [hfind, hkey, Option.bind_some, hg, Option.some_or]
              rfl

end search

/-! ## Strings -/

theorem stringBehind_pos {r : Bytes} (next : Nat) (hr : r <:+ json) :
    stringBehind json next (pos json r) =
      .ok (leaveOr next ((opened r).map fun t => found json {} (unquoted t))) := by
  unfold stringBehind opened
  rw [skipPast_pos colon hr, ok_bind]
  cases ha : after colon r with
  | none => rfl
  | some u =>
      have hu := (after_suffix ha).trans hr
      rw [Option.map_some, Option.bind_some]
      dsimp only
      rw [skipPast_pos quote hu, ok_bind]
      cases hb : after quote u with
      | none => rfl
      | some t =>
          have ht := (after_suffix hb).trans hu
          rw [Option.map_some]
          dsimp only
          rw [content_pos ht, ok_bind, closePos, Option.map_some, leaveOr, unquoted]
          cases hs : string t with
          | none =>
              rw [Option.map_none, Option.getD_none, if_pos le_rfl]
              rfl
          | some r =>
              obtain ⟨text, rfl, henc⟩ := string_split hs
              have hlt := pos_lt (suffix_drop ht)
              have hadd := pos_append ht
              rw [Option.map_some, Option.getD_some, if_neg (by omega), hadd]
              simp [found, Slice.span, pos, pure_ok]

/-- `extract_string` returns on every text, and never reads outside it. -/
theorem extractString_eq (json key : Bytes) :
    extractString json key = .ok (found json {} (stringOf key json)) := by
  unfold extractString stringOf
  rw [search_pos fun hr => stringBehind_pos _ hr]
  cases atQuotes (fun t => (keyed key t).bind opened) json <;> rfl

/-! ## Values -/

/-- The text does not end on a backslash, which would escape what stands behind it. -/
def NoDangling (json : Bytes) : Prop := ¬ [backslash] <:+ json

theorem NoDangling.eq_cons {t : Bytes} (hjson : NoDangling json) (h : backslash :: t <:+ json) :
    ∃ e u, t = e :: u := by
  cases t with
  | nil => exact absurd h hjson
  | cons e u => exact ⟨e, u, rfl⟩

theorem stringPass_stops (hjson : NoDangling json) : StopsAtQuote json (stringPass json) where
  ended := by simp [stringPass, pure_ok]
  closed t h := by simp [stringPass, pos_lt h, byteAt_pos h, pure_ok]
  escaped e t h := by
    have hq : backslash ≠ quote := by decide
    simp [stringPass, pos_lt h, byteAt_pos h, hq, pos_tail h, pos_tail (suffix_tail h), pure_ok]
  dangling h := absurd h hjson
  other b t hq hb h := by
    simp [stringPass, pos_lt h, byteAt_pos h, hq, hb, pos_tail h, pure_ok]

theorem stringLoop_pos (hjson : NoDangling json) {l : Bytes} (h : l <:+ json) :
    loop (stringPass json) .passes (passes json) (pos json l) = .ok (closePos json l) :=
  (stringPass_stops hjson).loop_pos h

section container

variable {o c : UInt8}

/-- The mode of the container loop, which steps over an escaped octet at once. -/
def modeOf (inStr : Bool) : Mode := if inStr then .string else .code

theorem modeOf_string {b : UInt8} (hb : b ≠ backslash) :
    Mode.string.next b = modeOf (b ≠ quote) := by
  by_cases hq : b = quote
  · simp [modeOf, Mode.next, hq]
  · simp [modeOf, Mode.next, hq, hb]

theorem containerPass_escape {e : UInt8} {t : Bytes} (h : backslash :: e :: t <:+ json) (d : Nat) :
    containerPass json o c (pos json (backslash :: e :: t), d, true) =
      .ok (.next (pos json t, d, true)) := by
  have htail := pos_tail h
  have htail' := pos_tail (suffix_tail h)
  simp [containerPass, pos_lt h, byteAt_pos h, htail', htail, pure_ok]

theorem containerPass_string {b : UInt8} {t : Bytes} (hb : b ≠ backslash) (h : b :: t <:+ json)
    (d : Nat) :
    containerPass json o c (pos json (b :: t), d, true) =
      .ok (.next (pos json t, d, b ≠ quote)) := by
  have hread := byteAt_pos h
  have hlt := pos_lt h
  have htail := pos_tail h
  by_cases hq : b = quote
  · subst hq
    simp [containerPass, hlt, hread, htail, hb, pure_ok]
  · simp [containerPass, hlt, hread, htail, hb, hq, pure_ok]

theorem containerPass_code {b : UInt8} {t : Bytes} (h : b :: t <:+ json) (d : Nat) :
    containerPass json o c (pos json (b :: t), d, false) =
      .ok (if b = quote then .next (pos json t, d, true)
        else if b = o then .next (pos json t, d + 1, false)
        else if b = c then
          if d - 1 = 0 then .done (pos json t) else .next (pos json t, d - 1, false)
        else .next (pos json t, d, false)) := by
  have hpass : containerPass json o c (pos json (b :: t), d, false) =
      (if b = quote then pure (.next (pos json t, d, true))
        else if b = o then pure (.next (pos json t, d + 1, false))
        else if b = c then
          if d - 1 = 0 then pure (.done (pos json t)) else pure (.next (pos json t, d - 1, false))
        else pure (.next (pos json t, d, false))) := by
    simp [containerPass, pos_lt h, byteAt_pos h, pos_tail h]
  rw [hpass]
  split_ifs <;> rfl

/-- What is left behind the container, seen from inside it. -/
def restFrom (o c : UInt8) (i : Bytes × Nat × Bool) : Bytes :=
  containerRest o c (modeOf i.2.2) i.2.1 i.1

/-- A pass from this index of the container loop keeps what will be left. -/
abbrev ContainerStep (json : Bytes) (o c : UInt8) (i : Bytes × Nat × Bool) : Prop :=
  PassMeets (fun i : Bytes × Nat × Bool => (pos json i.1, i.2)) (·.1 <:+ json) (·.1.length)
    (containerPass json o c) (fun i a => a = pos json (restFrom o c i)) i

theorem containerStep_nil (d : Nat) (inStr : Bool) : ContainerStep json o c ([], d, inStr) := by
  refine .done _ _ _ (a := json.length) ?_ ?_
  · simp [containerPass, pure_ok]
  · cases inStr <;> rfl

theorem containerStep_string (hjson : NoDangling json) {b : UInt8} {t : Bytes}
    (h : b :: t <:+ json) (d : Nat) : ContainerStep json o c (b :: t, d, true) := by
  have ht := suffix_tail h
  by_cases hb : b = backslash
  · subst hb
    obtain ⟨e, u, rfl⟩ := hjson.eq_cons h
    refine .next _ _ _ (j := (u, d, true)) (containerPass_escape h d) (suffix_tail ht) ?_ ?_
    · simp only [List.length_cons]
      omega
    · rintro a rfl
      rfl
  · refine .next _ _ _ (j := (t, d, b ≠ quote)) (containerPass_string hb h d) ht
      (Nat.lt_succ_self _) ?_
    rintro a rfl
    rw [restFrom, restFrom, ← modeOf_string hb]
    rfl

theorem containerStep_code {b : UInt8} {t : Bytes} (h : b :: t <:+ json) (d : Nat) :
    ContainerStep json o c (b :: t, d, false) := by
  have hpass := containerPass_code (o := o) (c := c) h d
  have hnext : ∀ d' inStr, containerPass json o c (pos json (b :: t), d, false) =
      .ok (.next (pos json t, d', inStr)) →
      restFrom o c (t, d', inStr) = restFrom o c (b :: t, d, false) →
      ContainerStep json o c (b :: t, d, false) := fun d' inStr hpass hrest =>
    .next _ _ _ (j := (t, d', inStr)) hpass (suffix_tail h) (Nat.lt_succ_self _)
      fun a ha => by rw [ha, hrest]
  by_cases hq : b = quote
  · rw [if_pos hq] at hpass
    exact hnext d true hpass (by simp [restFrom, modeOf, containerRest, hq])
  rw [if_neg hq] at hpass
  by_cases ho : b = o
  · rw [if_pos ho] at hpass
    subst ho
    exact hnext (d + 1) false hpass (by simp [restFrom, modeOf, containerRest, hq])
  rw [if_neg ho] at hpass
  by_cases hc : b = c
  · rw [if_pos hc] at hpass
    subst hc
    by_cases hd : d - 1 = 0
    · rw [if_pos hd] at hpass
      refine .done _ _ _ (a := pos json t) hpass ?_
      simp [restFrom, modeOf, containerRest, hq, ho, hd]
    · rw [if_neg hd] at hpass
      exact hnext (d - 1) false hpass (by simp [restFrom, modeOf, containerRest, hq, ho, hd])
  · rw [if_neg hc] at hpass
    exact hnext d false hpass (by simp [restFrom, modeOf, containerRest, hq, ho, hc])

theorem containerLoop_pos (hjson : NoDangling json) (d : Nat) {l : Bytes} (h : l <:+ json) :
    loop (containerPass json o c) .passes (passes json) (pos json l, d, false) =
      .ok (pos json (containerRest o c .code d l)) := by
  refine loop_eq (fun i : Bytes × Nat × Bool => (pos json i.1, i.2)) (·.1 <:+ json) (·.1.length)
    (f := fun i => pos json (restFrom o c i)) ?_ (i := (l, d, false)) h
    (Nat.lt_succ_of_le h.length_le)
  rintro ⟨l, d, inStr⟩ h
  cases l with
  | nil => exact containerStep_nil d inStr
  | cons b t =>
      cases inStr with
      | true => exact containerStep_string hjson h d
      | false => exact containerStep_code h d

end container

theorem valueEnd_pos (hjson : NoDangling json) {c : UInt8} {t : Bytes} (h : c :: t <:+ json) :
    valueEnd json (pos json (c :: t)) = .ok (pos json (valueRest (c :: t))) := by
  unfold valueEnd valueRest
  rw [byteAt_pos h, ok_bind]
  dsimp only
  by_cases hbrace : c = lbrace
  · subst hbrace
    exact containerLoop_pos hjson 0 h
  · by_cases hbracket : c = lbracket
    · subst hbracket
      exact containerLoop_pos hjson 0 h
    · have hopen : ¬ (decide (c = lbrace) || decide (c = lbracket)) = true := by
        simp [hbrace, hbracket]
      rw [if_neg hopen, if_neg hbrace, if_neg hbracket]
      by_cases hq : c = quote
      · subst hq
        have ht := suffix_tail h
        have hloop := stringLoop_pos hjson ht
        rw [pos_tail h] at hloop
        rw [if_pos rfl, if_pos rfl, hloop, ok_bind, closePos]
        cases hs : string t with
        | none =>
            rw [Option.map_none, Option.getD_none, if_neg (by omega)]
            rfl
        | some r =>
            obtain ⟨text, rfl, -⟩ := string_split hs
            have hr := suffix_drop ht
            rw [Option.map_some, Option.getD_some, if_pos (pos_lt hr), ← pos_tail hr]
            rfl
      · rw [if_neg hq, if_neg hq]
        exact skipWhile_pos h

theorem atQuotes_suffix {f : Bytes → Option Bytes} (hf : ∀ t r, f t = some r → r <:+ t)
    {l r : Bytes} (h : atQuotes f l = some r) : r <:+ l := by
  induction l with
  | nil => cases h
  | cons b t ih =>
      by_cases hb : b = quote
      · subst hb
        rw [atQuotes_quote, Option.or_eq_some_iff] at h
        rcases h with h | ⟨-, h⟩
        · exact (hf t r h).trans (List.suffix_cons _ _)
        · exact (ih h).trans (List.suffix_cons _ _)
      · rw [atQuotes_cons hb] at h
        exact (ih h).trans (List.suffix_cons _ _)

theorem keyed_suffix (t r : Bytes) (h : keyed key t = some r) : r <:+ t := by
  rw [keyed_eq_some h]
  exact (List.suffix_cons _ _).trans (List.suffix_append _ _)

/-- `extract_value_span` on a text that does not end on a backslash. -/
theorem extractValueSpan_eq (hjson : NoDangling json) (key : Bytes) (out : Span) :
    extractValueSpan json key out = .ok (found json out (valueOf key json)) := by
  unfold extractValueSpan valueOf
  rw [search_pos (g := some) (fun _ => rfl), ok_bind]
  simp only [Option.bind_fun_some]
  cases hkey : atQuotes (keyed key) json with
  | none => rfl
  | some r =>
      have hr := atQuotes_suffix keyed_suffix hkey
      have hkeyend : ¬ pos json r ≥ json.length ∨ after colon r = none := by
        cases r with
        | nil => exact .inr rfl
        | cons b t => exact .inl (pos_lt hr).not_ge
      rw [Option.map_some, Option.getD_some, Option.bind_some]
      dsimp only
      rw [skipPast_pos colon hr, ok_bind]
      cases hcolon : after colon r with
      | none =>
          split_ifs <;> rfl
      | some u =>
          have hu := (after_suffix hcolon).trans hr
          have hrest := dropWhile_suffix (q := isBlank) hu
          rw [hcolon] at hkeyend
          rw [if_neg (hkeyend.resolve_right (Option.some_ne_none u)), Option.map_some,
            Option.bind_some, delimited]
          dsimp only
          rw [skipBlanks_pos hu, ok_bind]
          cases hblank : u.dropWhile isBlank with
          | nil =>
              rw [pos_nil, if_pos le_rfl]
              rfl
          | cons c t =>
              rw [hblank] at hrest
              have hstop := (valueRest_suffix (c :: t)).length_le
              have hlen := hrest.length_le
              rw [if_neg (pos_lt hrest).not_ge, valueEnd_pos hjson hrest, ok_bind, pure_ok, found,
                Slice.span]
              dsimp only
              have hspan : pos json (valueRest (c :: t)) - pos json (c :: t) =
                  (c :: t).length - (valueRest (c :: t)).length := by
                unfold pos
                omega
              rw [hspan]
              rfl

end MCPAdapter

end McpToolkit
