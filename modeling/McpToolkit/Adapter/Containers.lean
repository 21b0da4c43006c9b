import McpToolkit.Adapter.Locate
import McpToolkit.Json.Complete
/-!
# Two loops over a container

`JsonParser` and `extract_value_span` each have one.  The first gives up at a
truncated escape, at the end of the text and at too much depth.  Where it does not
give up, the second ends at the same octet, whatever stands in between.
-/

namespace McpToolkit

namespace MCPAdapter

open Scan Search

variable {json r : Bytes} {o c : UInt8}

/-- The scanner of the parser, from this index of the other loop, stops in front of `r`. -/
structure StopsAt (json : Bytes) (o c : UInt8) (r : Bytes) (i : Bytes × Nat × Bool) : Prop where
  within : i.1 <:+ json
  inside : 0 < i.2.1
  stops : container o c (modeOf i.2.2) i.2.1 i.1 = some r

/-- A pass from this index keeps where the loop will stop. -/
abbrev StopStep (json : Bytes) (o c : UInt8) (r : Bytes) (i : Bytes × Nat × Bool) : Prop :=
  PassMeets (fun i : Bytes × Nat × Bool => (pos json i.1, i.2)) (StopsAt json o c r) (·.1.length)
    (containerPass json o c) (fun _ a => a = pos json r) i

theorem StopsAt.string_step {b : UInt8} {t : Bytes} {d : Nat}
    (h : StopsAt json o c r (b :: t, d, true)) : StopStep json o c r (b :: t, d, true) := by
  have ht := suffix_tail h.within
  have hstops : container o c (Mode.string.next b) d t = some r := h.stops
  by_cases hb : b = backslash
  · subst hb
    cases t with
    | nil => cases hstops
    | cons e u =>
        refine .next _ _ _ (j := (u, d, true)) (containerPass_escape h.within d)
          ⟨suffix_tail ht, h.inside, hstops⟩ ?_ fun a ha => ha
        simp only [List.length_cons]
        omega
  · rw [modeOf_string hb] at hstops
    exact .next _ _ _ (j := (t, d, b ≠ quote)) (containerPass_string hb h.within d)
      ⟨ht, h.inside, hstops⟩ (Nat.lt_succ_self _) fun a ha => ha

theorem StopsAt.code_step {b : UInt8} {t : Bytes} {d : Nat}
    (h : StopsAt json o c r (b :: t, d, false)) : StopStep json o c r (b :: t, d, false) := by
  have ht := suffix_tail h.within
  have hd : 0 < d := h.inside
  have hpass := containerPass_code (o := o) (c := c) h.within d
  have hstops : container o c .code d (b :: t) = some r := h.stops
  have hnext : ∀ d' inStr, containerPass json o c (pos json (b :: t), d, false) =
      .ok (.next (pos json t, d', inStr)) → 0 < d' →
      container o c (modeOf inStr) d' t = some r → StopStep json o c r (b :: t, d, false) :=
    fun d' inStr hpass hd' hrest =>
      .next _ _ _ (j := (t, d', inStr)) hpass ⟨ht, hd', hrest⟩ (Nat.lt_succ_self _) fun a ha => ha
  by_cases hq : b = quote
  · rw [if_pos hq] at hpass
    rw [hq, container_code_quote] at hstops
    exact hnext d true hpass hd hstops
  rw [if_neg hq] at hpass
  rw [container_code_cons _ _ _ hq] at hstops
  by_cases ho : b = o
  · rw [if_pos ho] at hpass hstops
    -- the limit on the depth has not been reached
    split_ifs at hstops
    exact hnext (d + 1) false hpass (Nat.succ_pos d) hstops
  rw [if_neg ho] at hpass hstops
  by_cases hc : b = c
  · rw [if_pos hc] at hpass hstops
    by_cases hone : d = 1
    · rw [if_pos (by omega)] at hpass
      rw [if_pos hone, Option.some.injEq] at hstops
      exact .done _ _ _ (a := pos json t) hpass (by rw [hstops])
    · rw [if_neg (by omega)] at hpass
      rw [if_neg hone] at hstops
      exact hnext (d - 1) false hpass (by omega) hstops
  · rw [if_neg hc] at hpass hstops
    exact hnext d false hpass hd hstops

theorem StopsAt.step {i : Bytes × Nat × Bool} (h : StopsAt json o c r i) :
    StopStep json o c r i := by
  obtain ⟨l, d, inStr⟩ := i
  cases l with
  | nil => cases inStr <;> cases h.stops
  | cons b t =>
      cases inStr with
      | true => exact h.string_step
      | false => exact h.code_step

/-- The loop of `extract_value_span` stops where the scanner does. -/
theorem containerLoop_stops {t : Bytes} (h : o :: t <:+ json) (hq : o ≠ quote)
    (hstops : container o c .code 1 t = some r) :
    loop (containerPass json o c) .passes (passes json) (pos json (o :: t), 0, false) =
      .ok (pos json r) := by
  have hlen := h.length_le
  rw [List.length_cons] at hlen
  have hfirst : containerPass json o c (pos json (o :: t), 0, false) =
      .ok (.next (pos json t, 1, false)) := by
    rw [containerPass_code h, if_neg hq, if_pos rfl]
  rw [passes, loop_succ_next hfirst]
  exact loop_eq (fun i : Bytes × Nat × Bool => (pos json i.1, i.2)) (StopsAt json o c r)
    (·.1.length) (f := fun _ => pos json r) (fun _ => StopsAt.step) (i := (t, 1, false))
    ⟨suffix_tail h, Nat.one_pos, hstops⟩ hlen

theorem valueEnd_stops {k : Kind} {t : Bytes} (h : k.opening :: t <:+ json)
    (hstops : container k.opening k.closing .code 1 t = some r) :
    valueEnd json (pos json (k.opening :: t)) = .ok (pos json r) := by
  have hloop := containerLoop_stops h k.opening_ne_quote hstops
  rw [valueEnd, byteAt_pos h, ok_bind]
  cases k with
  | array => exact hloop
  | object => exact hloop

end MCPAdapter

open Scan

/-- A container that has been skipped. -/
theorem JsonParser.skipContainer_true {p p' : JsonParser} {o c : UInt8}
    (h : p.skipContainer o c = .ok (true, p')) :
    ∃ t r, p.input.drop p.pos = o :: t ∧ container o c .code 1 t = some r ∧
      p'.pos = p.input.length - r.length := by
  obtain ⟨input, pos, m⟩ := p
  have hlt : pos < input.length := by
    by_contra hge
    have hend : (⟨input, pos, m⟩ : JsonParser).pos ≥ (⟨input, pos, m⟩ : JsonParser).len :=
      Nat.le_of_not_lt hge
    rw [skipContainer, if_pos hend] at h
    cases h
  have hsuffix : input.drop pos <:+ input := List.drop_suffix pos input
  have hbefore : (⟨input, pos, m⟩ : JsonParser) = before input m (input.drop pos) := by
    rw [before, List.length_drop, Nat.sub_sub_self hlt.le]
  rw [hbefore] at h
  cases hdrop : input.drop pos with
  | nil =>
      rw [List.drop_eq_nil_iff] at hdrop
      omega
  | cons b t =>
      rw [hdrop] at h hsuffix
      have ho : b = o := by
        by_contra hne
        rw [skipContainer, if_neg (not_ge_cons hsuffix), peek_before hsuffix, ok_bind,
          if_pos hne] at h
        cases h
      subst ho
      have hreturns := skipContainer_before (c := c) (m := m) hsuffix
      refine ⟨t, ?_⟩
      cases hr : container b c .code 1 t with
      | none =>
          rw [hr] at hreturns
          obtain ⟨r, -, hrun⟩ := hreturns
          rw [hrun] at h
          cases h
      | some r =>
          rw [hr] at hreturns
          rw [hreturns.2] at h
          cases h
          exact ⟨r, rfl, rfl, rfl⟩

/-- Where the parser skips a container, `extract_value_span` delimits the same octets, in
any part of the text that has them. -/
theorem containers_agree {p p' : JsonParser} {k : Kind}
    (h : p.skipContainer k.opening k.closing = .ok (true, p')) {base stop : Nat}
    (hbase : base ≤ p.pos) (hstop : p'.pos ≤ stop) :
    MCPAdapter.valueEnd ((p.input.drop base).take (stop - base)) (p.pos - base) =
      .ok (p'.pos - base) := by
  obtain ⟨t, r, hdrop, hr, hpos'⟩ := JsonParser.skipContainer_true h
  obtain ⟨w, -, rfl, hw⟩ := container_closed k.opening k.closing .code 1 t hr
  have hlen : p.input.length - p.pos = 1 + w.length + r.length := by
    rw [← List.length_drop, hdrop, List.length_cons, List.length_append]
    omega
  -- the text in front of the container, and the text behind it up to `stop`
  obtain ⟨u, hu⟩ : ∃ u, u = (p.input.drop base).take (p.pos - base) := ⟨_, rfl⟩
  obtain ⟨v, hv⟩ : ∃ v, v = r.take (stop - p'.pos) := ⟨_, rfl⟩
  have hulen : u.length = p.pos - base := by
    rw [hu, List.length_take, List.length_drop]
    omega
  have hsplit : p.input.drop base = u ++ (k.opening :: w ++ r) := by
    have hrest : (p.input.drop base).drop (p.pos - base) = k.opening :: w ++ r := by
      rw [List.drop_drop, Nat.add_sub_cancel' hbase, hdrop, List.cons_append]
    rw [← hrest, hu, List.take_append_drop]
  have htext : (p.input.drop base).take (stop - base) = u ++ k.opening :: (w ++ v) := by
    have hcount : stop - base = (u ++ k.opening :: w).length + (stop - p'.pos) := by
      rw [List.length_append, List.length_cons]
      omega
    rw [hsplit, ← List.append_assoc, hcount, List.take_length_add_append, ← hv,
      List.append_assoc, List.cons_append]
  have hsuffix : k.opening :: (w ++ v) <:+ u ++ k.opening :: (w ++ v) := List.suffix_append _ _
  have hend := MCPAdapter.valueEnd_stops hsuffix (hw v)
  have hstart : MCPAdapter.pos (u ++ k.opening :: (w ++ v)) (k.opening :: (w ++ v)) =
      p.pos - base := by
    rw [MCPAdapter.pos, List.length_append, hulen]
    omega
  have hfinish : MCPAdapter.pos (u ++ k.opening :: (w ++ v)) v = p'.pos - base := by
    rw [MCPAdapter.pos, List.length_append, List.length_cons, List.length_append]
    omega
  rw [hstart, hfinish] at hend
  rw [htext, hend]

/-- A text that is no JSON, in which a container starts at the second octet. -/
def twoBraces : Bytes := ascii "x\x7b\x7b\"\x7d\\\"\"]\x7d\x7d\\"

theorem containers_agree_of_braces :
    MCPAdapter.valueEnd ((twoBraces.drop 1).take (12 - 1)) (1 - 1) = .ok (11 - 1) := by
  have hskip : (⟨twoBraces, 1, 12⟩ : JsonParser).skipContainer lbrace rbrace =
      .ok (true, ⟨twoBraces, 11, 12⟩) := rfl
  exact containers_agree (k := .object) hskip (by decide) (by decide)

end McpToolkit
