import McpToolkit.Json.Refine
import Mathlib.Data.List.DropRight
/-!
# Objects and whole messages

The loop over the members of an object, for any way of reading a member's
value, and from it the two instances: error objects and the top-level object.
`parse_refines` is the outcome: the parser returns without a fault on every
input, and what it returns is read off the list of members that `Scan.top`
finds.
-/

namespace McpToolkit

namespace Slice

theorem text_span {s : Slice} {input : Bytes} (h : s.start <:+ input) :
    (s.span input.length).text input = .ok s.text := by
  have hle := h.length_le
  have hdrop := (List.suffix_iff_eq_drop.mp h).symm
  rw [Span.text, span]
  dsimp only
  rw [bytesAt, if_pos (by omega), hdrop, text]

end Slice

namespace Scan

theorem blanks_blanks (l : Bytes) : blanks (blanks l) = blanks l :=
  List.dropWhile_idempotent _ l

theorem content_blanks (l : Bytes) : content (blanks l) = content l := by
  rw [content, content, blanks_blanks]

theorem symbol_blanks (b : UInt8) (l : Bytes) : symbol b (blanks l) = symbol b l := by
  rw [symbol, symbol, blanks_blanks]

theorem blanks_suffix (l : Bytes) : blanks l <:+ l := List.dropWhile_suffix _

/-! What a scanner leaves is a suffix of what it got: the parser run on that
very text says so. -/

theorem skipped_suffix {l : Bytes} {v : Slice} (h : skipped l = some v) : v.stop <:+ l := by
  have := JsonParser.skipValue_before (m := 0) (List.suffix_refl l) {}
  rw [h] at this
  exact this.1

theorem content_suffix {l r : Bytes} {s : Slice} (h : content l = some (s, r)) : r <:+ l := by
  have := JsonParser.parseString_before (m := 0) (List.suffix_refl l) {}
  rw [h] at this
  exact this.1

theorem int_suffix {l r : Bytes} {n : Int} (h : int l = some (n, r)) : r <:+ l := by
  have := JsonParser.parseInt_before (m := 0) (List.suffix_refl l) 0
  rw [h] at this
  exact this.1

theorem content_eq_some {l r : Bytes} {s : Slice} :
    content l = some (s, r) ↔
      ∃ t, blanks l = quote :: t ∧ string t = some r ∧ s = ⟨t, quote :: r⟩ := by
  rw [content]
  cases blanks l with
  | nil => simp
  | cons b t =>
      by_cases hq : b = quote
      · subst hq
        simp only [if_true, Option.map_eq_some_iff, Prod.mk.injEq, List.cons.injEq, true_and]
        constructor
        · rintro ⟨r', hr', rfl, rfl⟩
          exact ⟨t, rfl, hr', rfl⟩
        · rintro ⟨t', rfl, hr, rfl⟩
          exact ⟨r, hr, rfl, rfl⟩
      · simp [hq]

theorem symbol_eq_some {b : UInt8} {l r : Bytes} :
    symbol b l = some r ↔ blanks l = b :: r := by
  rw [symbol]
  cases blanks l with
  | nil => simp
  | cons c t =>
      simp only [Option.ite_none_right_eq_some, Option.some.injEq, List.cons.injEq]

theorem symbol_suffix {b : UInt8} {l r : Bytes} (h : symbol b l = some r) : r <:+ l :=
  (List.suffix_cons b r).trans (symbol_eq_some.mp h ▸ blanks_suffix l)

theorem symbol_shorter {b : UInt8} {l r : Bytes} (h : symbol b l = some r) :
    r.length < l.length := by
  have hle := (blanks_suffix l).length_le
  rw [symbol_eq_some.mp h, List.length_cons] at hle
  omega

theorem separator_suffix {l r : Bytes} (h : separator l = some r) : r <:+ l := by
  rw [separator] at h
  split at h
  · cases h
  · next b t heq =>
      have hbt := heq ▸ blanks_suffix l
      split_ifs at h
      · cases h
        exact (List.suffix_cons b _).trans hbt
      · cases h
        exact hbt

/-! ## The loop over the members -/

section members

variable {μ : Type} {read : Bytes → Bytes → Option (μ × Bytes)}

/-- Reading a value leaves a suffix. -/
def Shrinks (read : Bytes → Bytes → Option (μ × Bytes)) : Prop :=
  ∀ ⦃key l r : Bytes⦄ ⦃x : μ⦄, read key l = some (x, r) → r <:+ l

theorem member_eq_some {l r : Bytes} {m : μ} :
    member read l = some (m, r) ↔
      ∃ key l₁ l₂ l₃, content l = some (key, l₁) ∧ symbol colon l₁ = some l₂ ∧
        read key.text l₂ = some (m, l₃) ∧ separator l₃ = some r := by
  simp only [member, valued, bind, Option.bind_eq_some_iff, Prod.exists, pure, Option.some.injEq,
    Prod.mk.injEq]
  constructor
  · rintro ⟨key, l₁, hkey, l₂, hcolon, m', l₃, hm, r', hr, rfl, rfl⟩
    exact ⟨key, l₁, l₂, l₃, hkey, hcolon, hm, hr⟩
  · rintro ⟨key, l₁, l₂, l₃, hkey, hcolon, hm, hr⟩
    exact ⟨key, l₁, hkey, l₂, hcolon, m, l₃, hm, r, hr, rfl, rfl⟩

theorem member_shorter (hread : Shrinks read) {l r : Bytes} {m : μ}
    (h : member read l = some (m, r)) : r.length < l.length := by
  obtain ⟨key, l₁, l₂, l₃, hkey, hcolon, hm, hr⟩ := member_eq_some.mp h
  have h₁ := (content_suffix hkey).length_le
  have h₂ := symbol_shorter hcolon
  have h₃ := (hread hm).length_le
  have h₄ := (separator_suffix hr).length_le
  omega

theorem member_suffix (hread : Shrinks read) {l r : Bytes} {m : μ}
    (h : member read l = some (m, r)) : r <:+ l := by
  obtain ⟨key, l₁, l₂, l₃, hkey, hcolon, hm, hr⟩ := member_eq_some.mp h
  exact (separator_suffix hr).trans
    ((hread hm).trans ((symbol_suffix hcolon).trans (content_suffix hkey)))

/-- With enough passes their number does not matter. -/
theorem membersWithin_eq (hread : Shrinks read) {n : Nat} :
    ∀ {k : Nat} {l : Bytes}, l.length < n → l.length < k →
      membersWithin read n l = membersWithin read k l := by
  induction n with
  | zero =>
      intro k l hn
      omega
  | succ n ih =>
      intro k l hn hk
      cases k with
      | zero => omega
      | succ k =>
          rw [membersWithin, membersWithin]
          cases hb : symbol rbrace l with
          | some r => rfl
          | none =>
              cases hm : member read l with
              | none => rfl
              | some mr =>
                  obtain ⟨m, r⟩ := mr
                  have hlt := member_shorter hread hm
                  simp only [bind, Option.bind_some, ih (k := k) (l := r) (by omega) (by omega)]

/-- The two ways in which the members end. -/
theorem membersWithin_succ {n : Nat} {l r : Bytes} {ms : List μ}
    (h : membersWithin read (n + 1) l = some (ms, r)) :
    (ms = [] ∧ symbol rbrace l = some r) ∨
      ∃ x l' ms', member read l = some (x, l') ∧ membersWithin read n l' = some (ms', r) ∧
        ms = x :: ms' := by
  rw [membersWithin] at h
  cases hb : symbol rbrace l with
  | some r' =>
      rw [hb] at h
      cases h
      exact .inl ⟨rfl, rfl⟩
  | none =>
      rw [hb] at h
      simp only [bind, Option.bind_eq_some_iff, Prod.exists, Option.some.injEq,
        Prod.mk.injEq] at h
      obtain ⟨x, l', hm, ms', r', hms, rfl, rfl⟩ := h
      exact .inr ⟨x, l', ms', hm, hms, rfl⟩

theorem membersWithin_suffix (hread : Shrinks read) {n : Nat} :
    ∀ {l r : Bytes} {ms : List μ}, membersWithin read n l = some (ms, r) → r <:+ l := by
  induction n with
  | zero =>
      intro l r ms h
      cases h
  | succ n ih =>
      intro l r ms h
      rcases membersWithin_succ h with ⟨-, hb⟩ | ⟨x, l', ms', hm, hms, -⟩
      · exact symbol_suffix hb
      · exact (ih hms).trans (member_suffix hread hm)

theorem membersWithin_mono {n : Nat} : ∀ {k : Nat} {l r : Bytes} {ms : List μ},
    membersWithin read n l = some (ms, r) → n ≤ k → membersWithin read k l = some (ms, r) := by
  induction n with
  | zero =>
      intro k l r ms h
      cases h
  | succ n ih =>
      intro k l r ms h hk
      obtain ⟨k, rfl⟩ : ∃ k', k = k' + 1 := ⟨k - 1, by omega⟩
      rw [membersWithin] at h ⊢
      cases hb : symbol rbrace l with
      | some r' =>
          rw [hb] at h
          exact h
      | none =>
          rw [hb] at h
          simp only [bind, Option.bind_eq_some_iff, Prod.exists] at h ⊢
          obtain ⟨x, l', hm, ms', r', hms, heq⟩ := h
          exact ⟨x, l', hm, ms', r', ih hms (by omega), heq⟩

/-- Any number of passes that succeeds finds the members. -/
theorem members_of_within (hread : Shrinks read) {n : Nat} {l r : Bytes} {ms : List μ}
    (h : membersWithin read n l = some (ms, r)) : members read l = some (ms, r) := by
  rw [members, membersWithin_eq hread (k := max n (l.length + 1)) (by omega) (by omega)]
  exact membersWithin_mono h (le_max_left _ _)

theorem members_close {l r : Bytes} (h : symbol rbrace l = some r) :
    members read l = some ([], r) := by
  rw [members, membersWithin, h]

theorem members_cons (hread : Shrinks read) {l : Bytes} (h : symbol rbrace l = none) :
    members read l = (do
      let (m, l) ← member read l
      let (ms, r) ← members read l
      return (m :: ms, r)) := by
  rw [members, membersWithin, h]
  cases hm : member read l with
  | none => rfl
  | some mr =>
      obtain ⟨m, r⟩ := mr
      have hlt := member_shorter hread hm
      simp only [bind, Option.bind_some, members,
        membersWithin_eq hread (n := l.length) (k := r.length + 1) hlt (Nat.lt_succ_self _)]
      rfl

theorem object_suffix (hread : Shrinks read) {l r : Bytes} {ms : List μ}
    (h : object read l = some (ms, r)) : r <:+ l := by
  obtain ⟨l', hl, hms⟩ := Option.bind_eq_some_iff.mp h
  exact (membersWithin_suffix hread hms).trans (symbol_suffix hl)

end members

end Scan

namespace JsonParser

open Scan

variable {input : Bytes} {m : Nat} {μ : Type}

/-- A reader of members has filled in the message of `o` and left the cursor
before the rest in `o`. -/
def Fills (input : Bytes) (m : Nat)
    (run : Except Fault (Bool × JsonParser × MCPMessage)) (o : Option (MCPMessage × Bytes)) :
    Prop :=
  match o with
  | some (msg, r) => r <:+ input ∧ run = .ok (true, before input m r, msg)
  | none => ∃ msg r, r <:+ input ∧ run = .ok (false, before input m r, msg)

/-- The parser's way `reader` of reading a member's value finds the member that
`read` finds, and adds it to the message with `apply`. -/
def ReadsLike (input : Bytes) (m : Nat) (reader : MemberReader)
    (read : Bytes → Bytes → Option (μ × Bytes)) (apply : μ → MCPMessage → MCPMessage) : Prop :=
  ∀ (key : Bytes) {r : Bytes} (msg : MCPMessage), r <:+ input →
    Fills input m (reader key (before input m r) msg)
      ((read key r).map fun m => (apply m.1 msg, m.2))

/-- White space and one octet, with `k` to go on and `fail` to give up. -/
theorem symbol_before {β : Type} {b : UInt8} {r : Bytes} (h : r <:+ input)
    (fail : JsonParser → β) (k : JsonParser → Except Fault β) :
    (do
      let p ← (before input m r).skipWs
      if p.pos ≥ p.len then return fail p
      if (← p.peek) ≠ b then return fail p
      k (← p.advance 1)) =
    match symbol b r with
    | some r' => k (before input m r')
    | none => .ok (fail (before input m (blanks r))) := by
  have hb : blanks r <:+ input := (blanks_suffix r).trans h
  rw [skipWs_before h, ok_bind, symbol]
  cases hr : blanks r with
  | nil =>
      simp
      rfl
  | cons c t =>
      rw [hr] at hb
      by_cases hc : c = b
      · subst hc
        simp [not_le_cons hb, peek_before hb, advance_before hb]
      · simp [not_le_cons hb, peek_before hb, hc]
        rfl

/-- The pass through an object, as it ends in the loop of `parseMembers`. -/
abbrev MembersPass := Pass (JsonParser × MCPMessage) (Bool × JsonParser × MCPMessage)

/-- The end of a pass: a comma, or a closing brace that stays unread. -/
def passEnd (p : JsonParser) (msg : MCPMessage) : Except Fault MembersPass := do
  let p ← p.skipWs
  if p.pos ≥ p.len then return .done (false, p, msg)
  let c ← p.peek
  if c = comma then return .next (← p.advance 1, msg)
  if c ≠ rbrace then return .done (false, p, msg)
  return .next (p, msg)

/-- The pass from the value of a member on. -/
def passValue (reader : MemberReader) (key : Bytes) (p : JsonParser) (msg : MCPMessage) :
    Except Fault MembersPass := do
  let (ok, p, msg) ← reader key p msg
  if !ok then return .done (false, p, msg)
  passEnd p msg

/-- The pass from the colon of a member on. -/
def passColon (reader : MemberReader) (key : Span) (p : JsonParser) (msg : MCPMessage) :
    Except Fault MembersPass := do
  let p ← p.skipWs
  if p.pos ≥ p.len then return .done (false, p, msg)
  if (← p.peek) ≠ colon then return .done (false, p, msg)
  let p ← p.advance 1
  passValue reader (← key.text p.input) p msg

/-- The pass from the key of a member on. -/
def passKey (reader : MemberReader) (p : JsonParser) (msg : MCPMessage) :
    Except Fault MembersPass := do
  let (ok, key, p) ← p.parseString {}
  if !ok then return .done (false, p, msg)
  passColon reader key p msg

theorem membersPass_eq (reader : MemberReader) (p : JsonParser) (msg : MCPMessage) :
    membersPass reader (p, msg) = (do
      let p ← p.skipWs
      if p.pos ≥ p.len then return .done (false, p, msg)
      if (← p.peek) = rbrace then return .done (true, ← p.advance 1, msg)
      passKey reader p msg) := rfl

/-- How a pass that is to read `o` ends. -/
def PassReads (input : Bytes) (m : Nat) (run : Except Fault MembersPass)
    (o : Option (MCPMessage × Bytes)) : Prop :=
  match o with
  | some (msg, r) => r <:+ input ∧ run = .ok (.next (before input m r, msg))
  | none => ∃ msg r, r <:+ input ∧ run = .ok (.done (false, before input m r, msg))

theorem passEnd_before {r : Bytes} (h : r <:+ input) (msg : MCPMessage) :
    PassReads input m (passEnd (before input m r) msg)
      ((separator r).map fun r => (msg, r)) := by
  have hb : blanks r <:+ input := (blanks_suffix r).trans h
  rw [passEnd, skipWs_before h, ok_bind, separator]
  cases hr : blanks r with
  | nil =>
      refine ⟨msg, [], List.nil_suffix, ?_⟩
      simp
      rfl
  | cons b t =>
      rw [hr] at hb
      by_cases hcomma : b = comma
      · subst hcomma
        refine ⟨suffix_tail hb, ?_⟩
        simp [not_le_cons hb, peek_before hb, advance_before hb]
      · by_cases hbrace : b = rbrace
        · subst hbrace
          refine ⟨hb, ?_⟩
          simp [not_le_cons hb, peek_before hb]
          rfl
        · simp only [hcomma, hbrace, if_false]
          refine ⟨msg, b :: t, hb, ?_⟩
          simp [not_le_cons hb, peek_before hb, hcomma, hbrace]
          rfl

section members

variable {reader : MemberReader} {read : Bytes → Bytes → Option (μ × Bytes)}
variable {apply : μ → MCPMessage → MCPMessage}

theorem passValue_before (hread : ReadsLike input m reader read apply) (key : Bytes)
    {r : Bytes} (h : r <:+ input) (msg : MCPMessage) :
    PassReads input m (passValue reader key (before input m r) msg)
      ((valued read key r).map fun x => (apply x.1 msg, x.2)) := by
  have hvalue := hread key msg h
  rw [passValue, valued]
  cases hv : read key r with
  | none =>
      rw [hv] at hvalue
      obtain ⟨msg', r', hr', hrun⟩ := hvalue
      exact ⟨msg', r', hr', by rw [hrun]; rfl⟩
  | some xr =>
      rw [hv] at hvalue
      have hend := passEnd_before (m := m) hvalue.1 (apply xr.1 msg)
      rw [hvalue.2]
      cases hs : separator xr.2 with
      | none =>
          rw [hs] at hend
          simpa [hs] using hend
      | some r' =>
          rw [hs] at hend
          simpa [hs] using hend

theorem passColon_before (hread : ReadsLike input m reader read apply) {key : Slice}
    (hkey : key.start <:+ input) {r : Bytes} (h : r <:+ input) (msg : MCPMessage) :
    PassReads input m (passColon reader (key.span input.length) (before input m r) msg)
      (((symbol colon r).bind (valued read key.text)).map fun x => (apply x.1 msg, x.2)) := by
  rw [passColon, symbol_before h fun p => Pass.done (false, p, msg)]
  cases hs : symbol colon r with
  | none => exact ⟨msg, blanks r, (blanks_suffix r).trans h, rfl⟩
  | some r₁ =>
      have h₁ : r₁ <:+ input :=
        suffix_tail (symbol_eq_some.mp hs ▸ (blanks_suffix r).trans h)
      simp only [before_input, Slice.text_span hkey, ok_bind]
      exact passValue_before hread key.text h₁ msg

theorem passKey_before (hread : ReadsLike input m reader read apply) {r : Bytes}
    (h : r <:+ input) (msg : MCPMessage) :
    PassReads input m (passKey reader (before input m r) msg)
      ((member read r).map fun x => (apply x.1 msg, x.2)) := by
  have hkey := parseString_before (m := m) h {}
  rw [passKey, member]
  cases hc : content r with
  | none =>
      rw [hc] at hkey
      obtain ⟨key, r', hr', hrun⟩ := hkey
      exact ⟨msg, r', hr', by rw [hrun]; rfl⟩
  | some kr =>
      obtain ⟨key, r₁⟩ := kr
      rw [hc] at hkey
      obtain ⟨h₁, hrun⟩ := hkey
      have hstart : key.start <:+ input := by
        obtain ⟨t, ht, -, rfl⟩ := content_eq_some.mp hc
        exact suffix_tail (ht ▸ (blanks_suffix r).trans h)
      rw [hrun]
      exact passColon_before hread hstart h₁ msg

theorem membersPass_close {r r' : Bytes} (h : r <:+ input) (hr : symbol rbrace r = some r')
    (msg : MCPMessage) :
    membersPass reader (before input m r, msg) =
      .ok (.done (true, before input m r', msg)) := by
  have hb : rbrace :: r' <:+ input := symbol_eq_some.mp hr ▸ (blanks_suffix r).trans h
  rw [membersPass_eq, skipWs_before h, ok_bind, symbol_eq_some.mp hr]
  simp [not_le_cons hb, peek_before hb, advance_before hb]

/-- Without a closing brace in front the pass reads a member. -/
theorem membersPass_member (hread : ReadsLike input m reader read apply) {r : Bytes}
    (h : r <:+ input) (hr : symbol rbrace r = none) (msg : MCPMessage) :
    PassReads input m (membersPass reader (before input m r, msg))
      ((member read r).map fun x => (apply x.1 msg, x.2)) := by
  have hb : blanks r <:+ input := (blanks_suffix r).trans h
  rw [membersPass_eq, skipWs_before h, ok_bind]
  cases hbl : blanks r with
  | nil =>
      rw [member, content, hbl]
      refine ⟨msg, [], List.nil_suffix, ?_⟩
      simp
      rfl
  | cons b t =>
      have hmember : member read r = member read (b :: t) := by
        rw [← hbl, member, member, content_blanks]
      have hbrace : b ≠ rbrace := by
        rintro rfl
        rw [symbol_eq_some.mpr hbl] at hr
        cases hr
      rw [hbl] at hb
      rw [if_neg (not_ge_cons hb), peek_before hb, ok_bind, if_neg hbrace, hmember]
      exact passKey_before hread hb msg

/-- The effect on the message of the members that were found. -/
def fill (apply : μ → MCPMessage → MCPMessage) (fields : List μ) (msg : MCPMessage) :
    MCPMessage :=
  fields.foldl (fun msg field => apply field msg) msg

theorem membersPass_meets (hshrinks : Shrinks read) (hread : ReadsLike input m reader read apply)
    {r : Bytes} (h : r <:+ input) (msg : MCPMessage) :
    PassMeets (fun i : Bytes × MCPMessage => (before input m i.1, i.2)) (fun i => i.1 <:+ input)
      (fun i => i.1.length) (membersPass reader)
      (fun i a => Fills input m (.ok a)
        ((members read i.1).map fun x => (fill apply x.1 i.2, x.2))) (r, msg) := by
  cases hr : symbol rbrace r with
  | some r' =>
      refine .done _ _ _ (membersPass_close h hr msg) ?_
      rw [members_close hr]
      exact ⟨suffix_tail (symbol_eq_some.mp hr ▸ (blanks_suffix r).trans h), rfl⟩
  | none =>
      have hpass := membersPass_member hread h hr msg
      have hmembers := members_cons hshrinks hr
      cases hm : member read r with
      | none =>
          rw [hm] at hpass hmembers
          obtain ⟨msg', r', hr', hrun⟩ := hpass
          refine .done _ _ _ hrun ?_
          rw [hmembers]
          exact ⟨msg', r', hr', rfl⟩
      | some xr =>
          obtain ⟨x, r'⟩ := xr
          rw [hm] at hpass hmembers
          refine .next _ _ _ (j := (r', apply x msg)) hpass.2 hpass.1
            (member_shorter hshrinks hm) fun a ha => ?_
          rw [hmembers]
          dsimp only at ha ⊢
          cases hms : members read r' with
          | none =>
              rw [hms] at ha
              simpa [hms] using ha
          | some msr =>
              rw [hms] at ha
              simpa [hms, fill] using ha

theorem membersLoop_before (hshrinks : Shrinks read) (hread : ReadsLike input m reader read apply)
    {r : Bytes} (h : r <:+ input) (msg : MCPMessage) :
    Fills input m
      (loop (membersPass reader) .passes (input.length + 1) (before input m r, msg))
      ((members read r).map fun x => (fill apply x.1 msg, x.2)) := by
  obtain ⟨a, ha, hend⟩ := loop_spec (e := Fault.passes)
    (fun i : Bytes × MCPMessage => (before input m i.1, i.2)) (fun i => i.1 <:+ input)
    (fun i => i.1.length) (fun i hi => membersPass_meets hshrinks hread hi i.2) (i := (r, msg)) h
    (Nat.lt_succ_of_le h.length_le)
  rw [ha]
  exact hend

theorem parseMembers_before (hshrinks : Shrinks read)
    (hread : ReadsLike input m reader read apply) {r : Bytes} (h : r <:+ input)
    (msg : MCPMessage) :
    Fills input m (parseMembers reader (before input m r) msg)
      ((object read r).map fun x => (fill apply x.1 msg, x.2)) := by
  rw [parseMembers, symbol_before h fun p => (false, p, msg), object]
  cases hs : symbol lbrace r with
  | none => exact ⟨msg, blanks r, (blanks_suffix r).trans h, rfl⟩
  | some r₁ =>
      have h₁ : r₁ <:+ input :=
        suffix_tail (symbol_eq_some.mp hs ▸ (blanks_suffix r).trans h)
      exact membersLoop_before hshrinks hread h₁ msg

end members

end JsonParser

end McpToolkit
