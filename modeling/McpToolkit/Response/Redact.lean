import McpToolkit.Response.Sanitizer
import Mathlib.Data.List.TakeWhile
/-!
# Hidden paths

What the loop over the slashes makes of a text, as a function on the text: from every
slash that can start a path, and has another one behind it in the same word, to the end
of the word.  Slashes are counted in an `int`.
-/

namespace McpToolkit

namespace ResponseSanitizer

/-! ## The function that the loop computes -/

/-- The octets up to the next space. -/
def word (s : Bytes) : Bytes := s.takeWhile (· ≠ space)

def afterWord (s : Bytes) : Bytes := s.dropWhile (· ≠ space)

theorem word_append_afterWord (s : Bytes) : word s ++ afterWord s = s :=
  List.takeWhile_append_dropWhile

theorem space_notMem_word (s : Bytes) : space ∉ word s := fun h => by
  have hne := List.mem_takeWhile_imp h
  rw [decide_eq_true_eq] at hne
  exact hne rfl

theorem word_of_notMem {w : Bytes} (h : space ∉ w) : word w = w := by
  refine List.takeWhile_eq_self_iff.mpr fun b hb => ?_
  rw [decide_eq_true_eq]
  rintro rfl
  exact h hb

theorem word_append {w : Bytes} (h : space ∉ w) (t : Bytes) : word (w ++ space :: t) = w := by
  have hself : w.takeWhile (· ≠ space) = w := word_of_notMem h
  rw [word, List.takeWhile_append, hself, if_pos rfl, List.takeWhile_cons_of_neg (by decide),
    List.append_nil]

theorem afterWord_of_notMem {w : Bytes} (h : space ∉ w) : afterWord w = [] := by
  have hsplit := word_append_afterWord w
  rw [word_of_notMem h] at hsplit
  exact List.append_cancel_left (hsplit.trans (List.append_nil w).symm)

theorem afterWord_append {w : Bytes} (h : space ∉ w) (t : Bytes) :
    afterWord (w ++ space :: t) = space :: t := by
  have hsplit := word_append_afterWord (w ++ space :: t)
  rw [word_append h] at hsplit
  exact List.append_cancel_left hsplit

theorem afterWord_length_le (s : Bytes) : (afterWord s).length ≤ s.length :=
  (List.dropWhile_suffix _).length_le

/-- A text is one word, or a word and more behind a space. -/
theorem word_cases (s : Bytes) : space ∉ s ∨ ∃ w t, space ∉ w ∧ s = w ++ space :: t := by
  induction s with
  | nil => exact .inl List.not_mem_nil
  | cons b s ih =>
      by_cases hb : b = space
      · exact .inr ⟨[], s, List.not_mem_nil, hb ▸ rfl⟩
      · rcases ih with h | ⟨w, t, hw, rfl⟩
        · refine .inl ?_
          rw [List.mem_cons, not_or]
          exact ⟨Ne.symm hb, h⟩
        · refine .inr ⟨b :: w, t, ?_, rfl⟩
          rw [List.mem_cons, not_or]
          exact ⟨Ne.symm hb, hw⟩

/-- A text is read word by word. -/
theorem words_induction {P : Bytes → Prop} (hlast : ∀ w, space ∉ w → P w)
    (hmore : ∀ w t, space ∉ w → P t → P (w ++ space :: t)) (s : Bytes) : P s := by
  induction hlength : s.length using Nat.strong_induction_on generalizing s with
  | _ n ih =>
      subst hlength
      rcases word_cases s with h | ⟨w, t, hw, rfl⟩
      · exact hlast s h
      · refine hmore w t hw (ih t.length ?_ t rfl)
        rw [List.length_append, List.length_cons]
        omega

/-- The number of slashes before the next space. -/
def slashes (s : Bytes) : Nat := (word s).count slash

/-- The text with its paths hidden; `start` says whether one can start at its front. -/
def hidePaths (start : Bool) : Bytes → Bytes
  | [] => []
  | b :: t =>
      if start = true ∧ b = slash ∧ 2 ≤ toInt (slashes (b :: t)) then
        pathMarker ++ hidePaths false (afterWord t)
      else b :: hidePaths (isspace b) t
termination_by s => s.length
decreasing_by
  · exact Nat.lt_succ_of_le (afterWord_length_le t)
  · exact Nat.lt_succ_self _

/-- A path can start behind this. -/
def startsAfter (done : Bytes) : Bool :=
  match done.getLast? with
  | none => true
  | some b => isspace b

theorem startsAfter_concat (done : Bytes) (b : UInt8) : startsAfter (done ++ [b]) = isspace b := by
  rw [startsAfter, List.getLast?_concat]

theorem startsAfter_pathMarker (done : Bytes) : startsAfter (done ++ pathMarker) = false := by
  have hmarker : pathMarker = ascii "/[PATH" ++ [rbracket] := by decide
  rw [hmarker, ← List.append_assoc, startsAfter_concat]
  rfl

theorem atStart_eq (done rest : Bytes) :
    atStart (done ++ rest) done.length = .ok (startsAfter done) := by
  rcases List.eq_nil_or_concat done with rfl | ⟨before, b, rfl⟩
  · rfl
  · rw [List.concat_eq_append, startsAfter_concat, atStart, if_neg (by simp)]
    have hdrop : (before ++ [b] ++ rest).drop ((before ++ [b]).length - 1) = b :: rest := by
      rw [List.length_append, List.length_singleton, Nat.add_sub_cancel, List.append_assoc,
        List.drop_left, List.singleton_append]
    rw [byteAt_of_drop hdrop]
    rfl

theorem hidePaths_append {skipped : Bytes} (h : slash ∉ skipped) (done rest : Bytes) :
    done ++ hidePaths (startsAfter done) (skipped ++ rest) =
      (done ++ skipped) ++ hidePaths (startsAfter (done ++ skipped)) rest := by
  induction skipped generalizing done with
  | nil => rw [List.append_nil, List.nil_append]
  | cons b skipped ih =>
      rw [List.mem_cons, not_or] at h
      rw [List.cons_append, hidePaths, if_neg fun hpath => h.1 hpath.2.1.symm,
        List.append_cons done b, ← startsAfter_concat done b, ih h.2, List.append_assoc done,
        List.singleton_append]

/-- The words are rewritten one by one. -/
theorem hidePaths_word {w : Bytes} (h : space ∉ w) (start : Bool) (t : Bytes) :
    hidePaths start (w ++ space :: t) = hidePaths start w ++ space :: hidePaths true t := by
  have hspace : ∀ start, hidePaths start (space :: t) = space :: hidePaths true t := by
    intro start
    rw [hidePaths, if_neg fun hpath => absurd hpath.2.1 (by decide)]
    rfl
  induction w generalizing start with
  | nil =>
      rw [List.nil_append, hspace, hidePaths]
      rfl
  | cons b w ih =>
      have hslashes : slashes (b :: (w ++ space :: t)) = slashes (b :: w) := by
        rw [slashes, slashes, ← List.cons_append, word_append h, word_of_notMem h]
      rw [List.mem_cons, not_or] at h
      rw [List.cons_append, hidePaths, hidePaths, hslashes, afterWord_append h.2,
        afterWord_of_notMem h.2, ih h.2, hspace]
      split_ifs
      · rw [hidePaths, List.append_nil]
      · rfl

theorem mem_hidePaths {b : UInt8} {start : Bool} {s : Bytes} (h : b ∈ hidePaths start s) :
    b ∈ pathMarker ∨ b ∈ s := by
  induction start, s using hidePaths.induct with
  | case1 start =>
      rw [hidePaths] at h
      exact .inr h
  | case2 start c t hpath ih =>
      rw [hidePaths, if_pos hpath, List.mem_append] at h
      rcases h with h | h
      · exact .inl h
      · refine (ih h).imp_right fun h => List.mem_cons_of_mem c ?_
        exact (List.dropWhile_suffix _).subset h
  | case3 start c t hpath ih =>
      rw [hidePaths, if_neg hpath, List.mem_cons] at h
      rcases h with rfl | h
      · exact .inr List.mem_cons_self
      · exact (ih h).imp_right (List.mem_cons_of_mem c)

theorem slash_mem_hidePaths {start : Bool} {s : Bytes} :
    slash ∈ hidePaths start s ↔ slash ∈ s := by
  induction start, s using hidePaths.induct with
  | case1 start => rw [hidePaths]
  | case2 start b t hpath ih =>
      rw [hidePaths, if_pos hpath]
      refine iff_of_true (List.mem_append_left _ (by decide)) ?_
      rw [hpath.2.1]
      exact List.mem_cons_self
  | case3 start b t hpath ih => rw [hidePaths, if_neg hpath, List.mem_cons, List.mem_cons, ih]

/-! ## The loop -/

/-- Where a path ends: at the next space or at the end. -/
theorem stop_eq (done rest : Bytes) :
    (find (done ++ rest) [space] done.length).getD (done ++ rest).length =
      done.length + (word rest).length := by
  rcases word_cases rest with h | ⟨w, t, hw, rfl⟩
  · rw [find_singleton_none h, word_of_notMem h, List.length_append]
    rfl
  · rw [find_singleton hw, word_append hw]
    rfl

theorem pathMarker_length : pathMarker.length = 7 := by decide

/-- At a slash, the path is what is left of the word. -/
theorem redactPass_slash (done t : Bytes) :
    redactPass (done ++ slash :: t, done.length) =
      if startsAfter done = true ∧ 2 ≤ toInt (slashes (slash :: t)) then
        .ok (.next (done ++ pathMarker ++ afterWord t, (done ++ pathMarker).length))
      else .ok (.next (done ++ [slash] ++ t, (done ++ [slash]).length)) := by
  have hfind : find (done ++ slash :: t) [slash] done.length = some done.length :=
    find_singleton List.not_mem_nil done t
  have hsplit : word (slash :: t) ++ afterWord t = slash :: t := word_append_afterWord (slash :: t)
  have hpath : ((done ++ slash :: t).drop done.length).take
      (done.length + (word (slash :: t)).length - done.length) = word (slash :: t) := by
    rw [List.drop_left, Nat.add_sub_cancel_left]
    nth_rewrite 2 [← hsplit]
    exact List.take_left
  have hrest : (done ++ slash :: t).drop (done.length + (word (slash :: t)).length) =
      afterWord t := by
    rw [← List.drop_drop, List.drop_left]
    nth_rewrite 2 [← hsplit]
    exact List.drop_left
  have hcount : (word (slash :: t)).count slash = slashes (slash :: t) := rfl
  rw [redactPass, hfind]
  dsimp only
  rw [atStart_eq, ok_bind, stop_eq, hpath, hrest, hcount, List.take_left, List.length_append,
    List.length_append, pathMarker_length, List.append_assoc done [slash], List.singleton_append]
  generalize toInt (slashes (slash :: t)) = count
  cases startsAfter done with
  | false =>
      rw [if_neg Bool.false_ne_true, if_neg fun h => Bool.false_ne_true h.1]
      rfl
  | true =>
      by_cases htwo : 2 ≤ count
      · rw [if_pos rfl, if_pos htwo, if_pos ⟨rfl, htwo⟩]
        rfl
      · rw [if_pos rfl, if_neg htwo, if_neg fun h => htwo h.2]
        rfl

/-- The search for a slash passes over what has none. -/
theorem redactPass_skip {skipped : Bytes} (h : slash ∉ skipped) (done t : Bytes) :
    redactPass (done ++ (skipped ++ slash :: t), done.length) =
      redactPass (done ++ skipped ++ slash :: t, (done ++ skipped).length) := by
  have hfind : find (done ++ skipped ++ slash :: t) [slash] (done ++ skipped).length =
      some (done ++ skipped).length := find_singleton List.not_mem_nil (done ++ skipped) t
  rw [redactPass, redactPass, hfind, find_singleton h, ← List.length_append, ← List.append_assoc]

theorem hidePaths_of_notMem {s : Bytes} (h : slash ∉ s) (start : Bool) : hidePaths start s = s := by
  induction s generalizing start with
  | nil => rw [hidePaths]
  | cons b s ih =>
      rw [List.mem_cons, not_or] at h
      rw [hidePaths, if_neg fun hpath => h.1 hpath.2.1.symm, ih h.2]

/-- What is done of the text, and what is left of it. -/
def redactState (i : Bytes × Bytes) : Bytes × Nat := (i.1 ++ i.2, i.1.length)

theorem redactPass_meets (i : Bytes × Bytes) :
    PassMeets redactState (fun _ => True) (fun i => i.2.length) redactPass
      (fun i result => result = i.1 ++ hidePaths (startsAfter i.1) i.2) i := by
  obtain ⟨done, rest⟩ := i
  by_cases hslash : slash ∈ rest
  · obtain ⟨skipped, t, rfl, hskipped⟩ := List.eq_append_cons_of_mem hslash
    have hpass := redactPass_slash (done ++ skipped) t
    rw [← redactPass_skip hskipped] at hpass
    by_cases hhides : startsAfter (done ++ skipped) = true ∧ 2 ≤ toInt (slashes (slash :: t))
    · rw [if_pos hhides] at hpass
      refine .next _ _ _ (j := (done ++ skipped ++ pathMarker, afterWord t)) hpass trivial ?_ ?_
      · have hlength := afterWord_length_le t
        dsimp only
        simp only [List.length_append, List.length_cons]
        omega
      · rintro result rfl
        dsimp only
        rw [hidePaths_append hskipped, hidePaths, if_pos ⟨hhides.1, rfl, hhides.2⟩,
          startsAfter_pathMarker, List.append_assoc (done ++ skipped)]
    · rw [if_neg hhides] at hpass
      refine .next _ _ _ (j := (done ++ skipped ++ [slash], t)) hpass trivial ?_ ?_
      · dsimp only
        simp only [List.length_append, List.length_cons]
        omega
      · rintro result rfl
        dsimp only
        rw [hidePaths_append hskipped, hidePaths, if_neg fun h => hhides ⟨h.1, h.2.2⟩,
          startsAfter_concat, List.append_assoc (done ++ skipped), List.singleton_append]
  · have hpass : redactPass (done ++ rest, done.length) = .ok (.done (done ++ rest)) := by
      rw [redactPass, find_singleton_none hslash]
      rfl
    refine .done _ _ _ hpass ?_
    dsimp only
    rw [hidePaths_of_notMem hslash]

/-- The loop ends, and hides the paths. -/
theorem redactPaths_eq (text : Bytes) : redactPaths text = .ok (hidePaths true text) :=
  loop_eq (e := Fault.passes) redactState _ _ (fun i _ => redactPass_meets i) (i := ([], text))
    trivial (Nat.lt_succ_self _)

/-! ## The pipeline -/

/-- The text after the first pass. -/
def visible (config : SanitizeConfig) (text : Bytes) : Bytes :=
  if config.redactPaths then hidePaths true text else text

/-- The text after both passes. -/
def rewritten (config : SanitizeConfig) (text : Bytes) : Bytes :=
  if config.escapeControlChars then escapeControlCharacters (visible config text)
  else visible config text

/-- A response is refused for its size or for what it says, or returned rewritten. -/
theorem sanitize_cases (response : Bytes) (config : SanitizeConfig) :
    (limited response config = none ∧ sanitize response config =
      .ok ([], some (ascii "Tool response exceeds maximum size"))) ∨
    ∃ text, limited response config = some text ∧
      ((containsInjectionPatterns text = true ∧ sanitize response config =
          .ok ([], some (ascii "Tool response contains suspicious patterns"))) ∨
        (containsInjectionPatterns text = false ∧ sanitize response config =
          .ok (rewritten config text, none))) := by
  unfold sanitize
  cases limited response config with
  | none => exact .inl ⟨rfl, rfl⟩
  | some text =>
      refine .inr ⟨text, rfl, ?_⟩
      cases hpattern : containsInjectionPatterns text with
      | true =>
          refine .inl ⟨rfl, ?_⟩
          dsimp only
          rw [hpattern, if_pos rfl]
          rfl
      | false =>
          refine .inr ⟨rfl, ?_⟩
          dsimp only
          rw [hpattern, if_neg Bool.false_ne_true, rewritten, visible]
          cases config.redactPaths with
          | false => rfl
          | true =>
              rw [if_pos rfl, if_pos rfl, redactPaths_eq]
              rfl

/-- What is to hold of the answer, and holds of a refusal, depends on the text that passes
the limit and the check. -/
theorem sanitize_iff {P : Bytes → Option Bytes → Prop} {Q : Bytes → Prop} (response : Bytes)
    (config : SanitizeConfig) (hrefused : ∀ message, P [] (some message))
    (hreturned : ∀ text, containsInjectionPatterns text = false →
      (P (rewritten config text) none ↔ Q text)) :
    ∃ result error, sanitize response config = .ok (result, error) ∧
      (P result error ↔ ∀ text, limited response config = some text →
        containsInjectionPatterns text = true ∨ Q text) := by
  rcases sanitize_cases response config with
    ⟨hlimited, hsanitize⟩ | ⟨text, hlimited, ⟨hpattern, hsanitize⟩ | ⟨hpattern, hsanitize⟩⟩
  · refine ⟨_, _, hsanitize, iff_of_true (hrefused _) ?_⟩
    rw [hlimited]
    exact fun text h => by cases h
  · refine ⟨_, _, hsanitize, iff_of_true (hrefused _) ?_⟩
    rw [hlimited]
    rintro _ ⟨⟩
    exact .inl hpattern
  · refine ⟨_, _, hsanitize, ?_⟩
    rw [hreturned text hpattern, hlimited]
    constructor
    · rintro h _ ⟨⟩
      exact .inr h
    · intro h
      refine (h text rfl).resolve_left ?_
      rw [hpattern]
      exact Bool.false_ne_true

end ResponseSanitizer

end McpToolkit
