import McpToolkit.Response.Redact
/-!
# What is hidden

Whether an octet of a text is hidden, said of the text itself: a path starts before the
octet, or at it, and no space comes between.  The hidden text is read octet by octet.
-/

namespace McpToolkit

namespace ResponseSanitizer

/-- At the end of `before` the text lies in a hidden path: one that starts in `before`,
with no space since. -/
def Hidden (before rest : Bytes) : Prop :=
  ∃ i < before.length, startsAfter (before.take i) = true ∧ before[i]? = some slash ∧
    space ∉ before.drop i ∧ 2 ≤ toInt (slashes (before.drop i ++ rest))

instance (before rest : Bytes) : Decidable (Hidden before rest) :=
  inferInstanceAs (Decidable (∃ i < _, _))

theorem not_hidden_nil (rest : Bytes) : ¬ Hidden [] rest := by
  rintro ⟨i, hi, -⟩
  exact absurd hi (Nat.not_lt_zero i)

/-- An octet is hidden with the one before it, or where a path starts. -/
theorem hidden_concat (before : Bytes) (b : UInt8) (t : Bytes) :
    Hidden (before ++ [b]) t ↔ (b ≠ space ∧ Hidden before (b :: t)) ∨
      (b = slash ∧ startsAfter before = true ∧ 2 ≤ toInt (slashes (b :: t))) := by
  constructor
  · rintro ⟨i, hi, hstart, hslash, hspace, hcount⟩
    rw [List.length_append, List.length_singleton] at hi
    rcases Nat.lt_succ_iff_lt_or_eq.mp hi with hi | rfl
    · rw [List.take_append_of_le_length hi.le] at hstart
      rw [List.getElem?_append_left hi] at hslash
      rw [List.drop_append_of_le_length hi.le] at hspace hcount
      rw [List.mem_append, List.mem_singleton, not_or] at hspace
      rw [List.append_assoc, List.singleton_append] at hcount
      exact .inl ⟨Ne.symm hspace.2, i, hi, hstart, hslash, hspace.1, hcount⟩
    · rw [List.take_left] at hstart
      rw [List.getElem?_concat_length, Option.some_inj] at hslash
      rw [List.drop_left, List.singleton_append] at hcount
      exact .inr ⟨hslash, hstart, hcount⟩
  · rintro (⟨hb, i, hi, hstart, hslash, hspace, hcount⟩ | ⟨rfl, hstart, hcount⟩)
    · refine ⟨i, by rw [List.length_append]; omega, ?_, ?_, ?_, ?_⟩
      · rwa [List.take_append_of_le_length hi.le]
      · rwa [List.getElem?_append_left hi]
      · rw [List.drop_append_of_le_length hi.le, List.mem_append, List.mem_singleton, not_or]
        exact ⟨hspace, Ne.symm hb⟩
      · rwa [List.drop_append_of_le_length hi.le, List.append_assoc]
    · refine ⟨before.length, by rw [List.length_append]; exact Nat.lt_succ_self _, ?_, ?_, ?_, ?_⟩
      · rwa [List.take_left]
      · exact List.getElem?_concat_length
      · rw [List.drop_left]
        decide
      · rwa [List.drop_left]

theorem afterWord_cons {b : UInt8} (hb : b ≠ space) (t : Bytes) :
    afterWord (b :: t) = afterWord t :=
  List.dropWhile_cons_of_pos (decide_eq_true hb)

theorem afterWord_append_of_notMem {w : Bytes} (h : space ∉ w) (t : Bytes) :
    afterWord (w ++ t) = afterWord t := by
  induction w with
  | nil => rfl
  | cons b w ih =>
      rw [List.mem_cons, not_or] at h
      rw [List.cons_append, afterWord_cons (Ne.symm h.1), ih h.2]

theorem hidePaths_space (start : Bool) (t : Bytes) :
    hidePaths start (space :: t) = space :: hidePaths true t := by
  have hword := hidePaths_word List.not_mem_nil start t
  rw [hidePaths] at hword
  exact hword

/-- What is written for the rest of a text. -/
def redacted (before rest : Bytes) : Bytes :=
  if Hidden before rest then hidePaths false (afterWord rest)
  else hidePaths (startsAfter before) rest

theorem redacted_nil (before : Bytes) : redacted before [] = [] := by
  rw [redacted]
  split_ifs
  · exact hidePaths.eq_1 false
  · exact hidePaths.eq_1 _

theorem redacted_start (text : Bytes) : redacted [] text = hidePaths true text := by
  rw [redacted, if_neg (not_hidden_nil text)]
  rfl

/-- An octet is written as it is, or it is hidden, and the first one that is hidden
stands for all. -/
theorem redacted_cons (before : Bytes) (b : UInt8) (t : Bytes) :
    (¬ Hidden (before ++ [b]) t ∧ redacted before (b :: t) = b :: redacted (before ++ [b]) t) ∨
    (Hidden (before ++ [b]) t ∧ Hidden before (b :: t) ∧
      redacted before (b :: t) = redacted (before ++ [b]) t) ∨
    (Hidden (before ++ [b]) t ∧ ¬ Hidden before (b :: t) ∧ b = slash ∧
      redacted before (b :: t) = pathMarker ++ redacted (before ++ [b]) t) := by
  have hconcat := hidden_concat before b t
  unfold redacted
  rw [startsAfter_concat]
  by_cases hb : b = space
  · subst hb
    have hnot : ¬ Hidden (before ++ [space]) t := by
      rw [hconcat]
      rintro (⟨hne, -⟩ | ⟨heq, -⟩)
      · exact hne rfl
      · exact absurd heq (by decide)
    refine .inl ⟨hnot, ?_⟩
    have hafter : afterWord (space :: t) = space :: t := afterWord_append List.not_mem_nil t
    rw [if_neg hnot, hafter, hidePaths_space, hidePaths_space, ite_self]
    rfl
  · by_cases hhidden : Hidden before (b :: t)
    · have hnext : Hidden (before ++ [b]) t := hconcat.mpr (.inl ⟨hb, hhidden⟩)
      refine .inr (.inl ⟨hnext, hhidden, ?_⟩)
      rw [if_pos hhidden, if_pos hnext, afterWord_cons hb]
    · by_cases hpath : b = slash ∧ startsAfter before = true ∧ 2 ≤ toInt (slashes (b :: t))
      · have hnext : Hidden (before ++ [b]) t := hconcat.mpr (.inr hpath)
        refine .inr (.inr ⟨hnext, hhidden, hpath.1, ?_⟩)
        rw [if_neg hhidden, if_pos hnext, hidePaths, if_pos ⟨hpath.2.1, hpath.1, hpath.2.2⟩]
      · have hnext : ¬ Hidden (before ++ [b]) t := by
          rw [hconcat, not_or]
          exact ⟨fun h => hhidden h.2, hpath⟩
        refine .inl ⟨hnext, ?_⟩
        rw [if_neg hhidden, if_neg hnext, hidePaths, if_neg fun h => hpath ⟨h.2.1, h.1, h.2.2⟩]

/-! ## A rest without slashes -/

theorem slashes_append {rest : Bytes} (h : slash ∉ rest) (s : Bytes) :
    slashes (s ++ rest) = slashes s := by
  rcases word_cases s with hs | ⟨w, t, hw, rfl⟩
  · have hself : s.takeWhile (· ≠ space) = s := word_of_notMem hs
    have hrest : slash ∉ rest.takeWhile (· ≠ space) :=
      fun hmem => h ((List.takeWhile_prefix _).subset hmem)
    rw [slashes, slashes, word_of_notMem hs, word, List.takeWhile_append, hself, if_pos rfl,
      List.count_append, List.count_eq_zero_of_not_mem hrest, Nat.add_zero]
  · rw [List.append_assoc, List.cons_append, slashes, slashes, word_append hw, word_append hw]

theorem hidden_append {rest : Bytes} (h : slash ∉ rest) (before t : Bytes) :
    Hidden before (t ++ rest) ↔ Hidden before t := by
  unfold Hidden
  simp only [← List.append_assoc, slashes_append h]

/-- What has neither a slash nor a space is hidden or not as a whole. -/
theorem hidden_extend {w : Bytes} (hslash : slash ∉ w) (hspace : space ∉ w) (before t : Bytes) :
    Hidden (before ++ w) t ↔ Hidden before (w ++ t) := by
  induction w generalizing before with
  | nil => rw [List.append_nil, List.nil_append]
  | cons b w ih =>
      rw [List.mem_cons, not_or] at hslash hspace
      rw [List.append_cons, ih hslash.2 hspace.2, hidden_concat, or_iff_left,
        and_iff_right (Ne.symm hspace.1), List.cons_append]
      exact fun hpath => hslash.1 hpath.1.symm

theorem redacted_of_notMem {rest : Bytes} (h : slash ∉ rest) (before : Bytes) :
    redacted before rest = if Hidden before [] then afterWord rest else rest := by
  have hafter : slash ∉ afterWord rest := fun hmem => h ((List.dropWhile_suffix _).subset hmem)
  have hhidden := hidden_append h before []
  rw [List.nil_append] at hhidden
  rw [redacted, hidePaths_of_notMem h, hidePaths_of_notMem hafter]
  simp only [hhidden]

/-- What is written before a rest without slashes does not depend on it. -/
theorem redacted_append (front before : Bytes) : ∃ done, ∀ rest, slash ∉ rest →
    redacted front (before ++ rest) = done ++ redacted (front ++ before) rest := by
  induction before generalizing front with
  | nil =>
      refine ⟨[], fun rest _ => ?_⟩
      rw [List.append_nil, List.nil_append, List.nil_append]
  | cons b t ih =>
      obtain ⟨done, hdone⟩ := ih (front ++ [b])
      have hnext : ∀ rest, slash ∉ rest →
          (Hidden (front ++ [b]) (t ++ rest) ↔ Hidden (front ++ [b]) t) :=
        fun rest hrest => hidden_append hrest _ t
      have hhere : ∀ rest, slash ∉ rest →
          (Hidden front (b :: (t ++ rest)) ↔ Hidden front (b :: t)) :=
        fun rest hrest => hidden_append hrest front (b :: t)
      rw [List.append_cons]
      rcases redacted_cons front b t with ⟨hshown, -⟩ | ⟨hhidden, hfront, -⟩ |
        ⟨hhidden, hfront, -, -⟩
      · refine ⟨b :: done, fun rest hrest => ?_⟩
        rcases redacted_cons front b (t ++ rest) with ⟨-, heq⟩ | ⟨h, -⟩ | ⟨h, -⟩
        · rw [List.cons_append, heq, hdone rest hrest]
          rfl
        · exact absurd ((hnext rest hrest).mp h) hshown
        · exact absurd ((hnext rest hrest).mp h) hshown
      · refine ⟨done, fun rest hrest => ?_⟩
        rcases redacted_cons front b (t ++ rest) with ⟨h, -⟩ | ⟨-, -, heq⟩ | ⟨-, h, -⟩
        · exact absurd ((hnext rest hrest).mpr hhidden) h
        · rw [List.cons_append, heq, hdone rest hrest]
        · exact absurd ((hhere rest hrest).mpr hfront) h
      · refine ⟨pathMarker ++ done, fun rest hrest => ?_⟩
        rcases redacted_cons front b (t ++ rest) with ⟨h, -⟩ | ⟨-, h, -⟩ | ⟨-, -, -, heq⟩
        · exact absurd ((hnext rest hrest).mpr hhidden) h
        · exact absurd ((hhere rest hrest).mp h) hfront
        · rw [List.cons_append, heq, hdone rest hrest, ← List.append_assoc]

end ResponseSanitizer

end McpToolkit
