import McpToolkit.Response.Redact
/-!
# No path is left

What `redact_paths` replaces, and what it leaves.  At most one path of a word is replaced,
the first one whose slashes an `int` counts as two or more, and with it all that is
behind it.
-/

namespace McpToolkit

namespace ResponseSanitizer

/-! ## Paths -/

/-- A path at the front: from a slash to the next space, with another slash in it. -/
def LeadsPath (s : Bytes) : Prop := s.head? = some slash ∧ 2 ≤ slashes s

/-- A path somewhere, at the start of the text (if `start`) or behind white space. -/
def HasPath (start : Bool) (s : Bytes) : Prop :=
  ∃ before path, s = before ++ path ∧ LeadsPath path ∧
    (before = [] ∧ start = true ∨ ∃ b, before.getLast? = some b ∧ isspace b = true)

/-- The second text is the first one with some of its paths replaced. -/
inductive Redacts : Bool → Bytes → Bytes → Prop where
  | nil {start : Bool} : Redacts start [] []
  | keep {start : Bool} (b : UInt8) {t t' : Bytes} : Redacts (isspace b) t t' →
      Redacts start (b :: t) (b :: t')
  | hide {path rest rest' : Bytes} : path.head? = some slash → space ∉ path →
      2 ≤ path.count slash → (rest = [] ∨ rest.head? = some space) → Redacts false rest rest' →
      Redacts true (path ++ rest) (pathMarker ++ rest')

theorem hasPath_nil (start : Bool) : ¬ HasPath start [] := by
  rintro ⟨before, path, h, hpath, -⟩
  obtain ⟨rfl, rfl⟩ := List.append_eq_nil_iff.mp h.symm
  cases hpath.1

theorem hasPath_cons (start : Bool) (b : UInt8) (t : Bytes) : HasPath start (b :: t) ↔
    (start = true ∧ LeadsPath (b :: t)) ∨ HasPath (isspace b) t := by
  constructor
  · rintro ⟨before, path, h, hpath, hbefore⟩
    cases before with
    | nil =>
        rcases hbefore with ⟨-, hstart⟩ | ⟨c, hc, -⟩
        · exact .inl ⟨hstart, h ▸ hpath⟩
        · cases hc
    | cons c before =>
        obtain ⟨rfl, rfl⟩ := List.cons.inj h
        refine .inr ⟨before, path, rfl, hpath, ?_⟩
        rcases hbefore with ⟨hnil, -⟩ | ⟨c, hc, hspace⟩
        · cases hnil
        · cases before with
          | nil =>
              cases hc
              exact .inl ⟨rfl, hspace⟩
          | cons d before =>
              rw [List.getLast?_cons_cons] at hc
              exact .inr ⟨c, hc, hspace⟩
  · rintro (⟨hstart, hpath⟩ | ⟨before, path, rfl, hpath, hbefore⟩)
    · exact ⟨[], b :: t, rfl, hpath, .inl ⟨rfl, hstart⟩⟩
    · refine ⟨b :: before, path, rfl, hpath, .inr ?_⟩
      rcases hbefore with ⟨rfl, hspace⟩ | ⟨c, hc, hspace⟩
      · exact ⟨b, rfl, hspace⟩
      · cases before with
        | nil => cases hc
        | cons d before => exact ⟨c, hc, hspace⟩

/-! ## What is replaced -/

theorem toInt_le (n : Nat) : toInt n ≤ n := by
  have hmod := Int.bmod_eq_emod n (2 ^ 32)
  unfold toInt
  omega

theorem hidePaths_redacts (start : Bool) (s : Bytes) : Redacts start s (hidePaths start s) := by
  induction start, s using hidePaths.induct with
  | case1 start =>
      rw [hidePaths]
      exact .nil
  | case2 start b t hpath ih =>
      rw [hidePaths, if_pos hpath]
      obtain ⟨rfl, rfl, hcount⟩ := hpath
      have hsplit : slash :: t = word (slash :: t) ++ afterWord t :=
        (word_append_afterWord (slash :: t)).symm
      have hle := toInt_le (slashes (slash :: t))
      rw [hsplit]
      refine .hide rfl (space_notMem_word _) (by rw [slashes] at hle hcount; omega) ?_ ih
      rcases word_cases t with h | ⟨w, r, hw, rfl⟩
      · exact .inl (afterWord_of_notMem h)
      · exact .inr (by rw [afterWord_append hw]; rfl)
  | case3 start b t hpath ih =>
      rw [hidePaths, if_neg hpath]
      exact .keep b ih

/-- A text without a path stays as it is. -/
theorem hidePaths_eq_self {start : Bool} {s : Bytes} (h : ¬ HasPath start s) :
    hidePaths start s = s := by
  induction s generalizing start with
  | nil => rw [hidePaths]
  | cons b t ih =>
      rw [hasPath_cons, not_or] at h
      have hnot : ¬ (start = true ∧ b = slash ∧ 2 ≤ toInt (slashes (b :: t))) := by
        rintro ⟨hstart, rfl, hcount⟩
        have hle := toInt_le (slashes (slash :: t))
        exact h.1 ⟨hstart, rfl, by omega⟩
      rw [hidePaths, if_neg hnot, ih h.2]

/-! ## What is left -/

/-- The words of a text, between its spaces. -/
def words : Bytes → List Bytes
  | [] => [[]]
  | b :: t =>
      if b = space then [] :: words t
      else
        match words t with
        | [] => [[b]]
        | w :: ws => (b :: w) :: ws

/-- What is left of a word from the first slash on that can start a path. -/
def firstPath (start : Bool) : Bytes → Option Bytes
  | [] => none
  | b :: t => if start = true ∧ b = slash then some (b :: t) else firstPath (isspace b) t

/-- The path at the front of a word passes for a single slash. -/
def Miscounted (path : Bytes) : Prop := 2 ≤ path.count slash ∧ toInt (path.count slash) < 2

theorem words_of_notMem {w : Bytes} (h : space ∉ w) : words w = [w] := by
  induction w with
  | nil => rfl
  | cons b w ih =>
      rw [List.mem_cons, not_or] at h
      rw [words, if_neg (Ne.symm h.1), ih h.2]

theorem words_append {w : Bytes} (h : space ∉ w) (t : Bytes) :
    words (w ++ space :: t) = w :: words t := by
  induction w with
  | nil => rfl
  | cons b w ih =>
      rw [List.mem_cons, not_or] at h
      rw [List.cons_append, words, if_neg (Ne.symm h.1), ih h.2]

theorem slashes_of_notMem {w : Bytes} (h : space ∉ w) : slashes w = w.count slash := by
  rw [slashes, word_of_notMem h]

theorem space_notMem_hidePaths {w : Bytes} (h : space ∉ w) (start : Bool) :
    space ∉ hidePaths start w := fun hmem => by
  rcases mem_hidePaths hmem with hmarker | hw
  · exact absurd hmarker (by decide)
  · exact h hw

/-- A path is within a word. -/
theorem hasPath_word {w : Bytes} (h : space ∉ w) (start : Bool) (t : Bytes) :
    HasPath start (w ++ space :: t) ↔ HasPath start w ∨ HasPath true t := by
  induction w generalizing start with
  | nil =>
      have hspace : ¬ LeadsPath (space :: t) := fun h =>
        absurd (Option.some.inj h.1) (by decide)
      rw [List.nil_append, hasPath_cons, or_iff_right fun h => hspace h.2,
        or_iff_right (hasPath_nil start)]
      rfl
  | cons b w ih =>
      have hleads : LeadsPath (b :: (w ++ space :: t)) ↔ LeadsPath (b :: w) := by
        rw [LeadsPath, LeadsPath, ← List.cons_append, slashes, slashes, word_append h,
          word_of_notMem h]
        rfl
      rw [List.mem_cons, not_or] at h
      rw [List.cons_append, hasPath_cons, hasPath_cons, ih h.2, hleads, or_assoc]

theorem hasPath_slash_mem {start : Bool} {s : Bytes} (h : HasPath start s) : slash ∈ s := by
  obtain ⟨before, path, rfl, hpath, -⟩ := h
  exact List.mem_append_right before (List.mem_of_head? hpath.1)

/-- Behind a slash that can start a path one more makes a path. -/
theorem hasPath_slash {s : Bytes} (h : space ∉ s) : HasPath true (slash :: s) ↔ slash ∈ s := by
  have hcons : space ∉ slash :: s := by
    rw [List.mem_cons, not_or]
    exact ⟨by decide, h⟩
  have hleads : LeadsPath (slash :: s) ↔ slash ∈ s := by
    rw [LeadsPath, slashes_of_notMem hcons, List.count_cons_self, ← List.count_pos_iff]
    constructor
    · rintro ⟨-, hcount⟩
      omega
    · intro hcount
      exact ⟨rfl, by omega⟩
  rw [hasPath_cons, hleads]
  constructor
  · rintro (⟨-, hmem⟩ | hpath)
    · exact hmem
    · exact hasPath_slash_mem hpath
  · exact fun hmem => .inl ⟨rfl, hmem⟩

theorem hasPath_pathMarker : ¬ HasPath true pathMarker := by
  have hmarker : pathMarker = slash :: ascii "[PATH]" := by decide
  rw [hmarker, hasPath_slash (by decide)]
  decide

/-- In a word, a path is left if and only if the first one is miscounted. -/
theorem hasPath_hidePaths_word {w : Bytes} (h : space ∉ w) (start : Bool) :
    HasPath start (hidePaths start w) ↔ ∃ path ∈ firstPath start w, Miscounted path := by
  induction w generalizing start with
  | nil =>
      rw [hidePaths]
      exact iff_of_false (hasPath_nil start) (by simp [firstPath])
  | cons b t ih =>
      have hcount := slashes_of_notMem h
      rw [List.mem_cons, not_or] at h
      by_cases hb : start = true ∧ b = slash
      · obtain ⟨rfl, rfl⟩ := hb
        have hfirst : (∃ path ∈ firstPath true (slash :: t), Miscounted path) ↔
            Miscounted (slash :: t) := by
          rw [firstPath, if_pos ⟨rfl, rfl⟩]
          simp
        rw [hfirst, Miscounted, ← hcount]
        by_cases htwo : 2 ≤ toInt (slashes (slash :: t))
        · rw [hidePaths, if_pos ⟨rfl, rfl, htwo⟩, afterWord_of_notMem h.2, hidePaths,
            List.append_nil]
          exact iff_of_false hasPath_pathMarker fun h => by omega
        · rw [hidePaths, if_neg fun h => htwo h.2.2,
            hasPath_slash (space_notMem_hidePaths h.2 _), slash_mem_hidePaths,
            and_iff_left (Int.lt_of_not_ge htwo), hcount, List.count_cons_self,
            ← List.count_pos_iff]
          omega
      · have hnot : ∀ {s : Bytes}, ¬ (start = true ∧ LeadsPath (b :: s)) := fun h =>
          hb ⟨h.1, Option.some.inj h.2.1⟩
        rw [hidePaths, if_neg fun h => hb ⟨h.1, h.2.1⟩, hasPath_cons, or_iff_right hnot, ih h.2,
          firstPath, if_neg hb]

theorem hasPath_hidePaths (text : Bytes) : HasPath true (hidePaths true text) ↔
    ∃ w ∈ words text, ∃ path ∈ firstPath true w, Miscounted path := by
  induction text using words_induction with
  | hlast w hw =>
      rw [hasPath_hidePaths_word hw, words_of_notMem hw]
      simp
  | hmore w t hw ih =>
      rw [hidePaths_word hw, hasPath_word (space_notMem_hidePaths hw true), ih,
        hasPath_hidePaths_word hw, words_append hw, List.exists_mem_cons_iff]

/-- `redact_paths` ends and only replaces paths.  It leaves none, and does nothing to its own
result, if and only if no first path of a word has so many slashes that an `int` counts
less than two. -/
theorem redactPaths_clean_iff (text : Bytes) :
    ∃ result, redactPaths text = .ok result ∧ Redacts true text result ∧
      (¬ HasPath true result ∧ redactPaths result = .ok result ↔
        ∀ w ∈ words text, ∀ path ∈ firstPath true w, 2 ≤ path.count slash →
          2 ≤ toInt (path.count slash)) := by
  have hcondition : ¬ HasPath true (hidePaths true text) ↔
      ∀ w ∈ words text, ∀ path ∈ firstPath true w, 2 ≤ path.count slash →
        2 ≤ toInt (path.count slash) := by
    rw [hasPath_hidePaths]
    simp only [Miscounted, not_exists, not_and, Int.not_lt]
  refine ⟨_, redactPaths_eq text, hidePaths_redacts true text, ?_⟩
  rw [← hcondition, redactPaths_eq]
  refine and_iff_left_of_imp fun hnone => ?_
  rw [hidePaths_eq_self hnone]

theorem hidePaths_replicate (n : Nat) :
    hidePaths false (List.replicate n slash) = List.replicate n slash := by
  induction n with
  | zero =>
      rw [List.replicate_zero, hidePaths]
  | succ n ih =>
      have hspace : isspace slash = false := by decide
      rw [List.replicate_succ, hidePaths, if_neg fun h => Bool.false_ne_true h.1, hspace, ih]

/-- A path of nothing but slashes stays if an `int` cannot count them. -/
theorem redactPaths_replicate {n : Nat} (hn : 1 ≤ n) (hint : toInt (n + 1) < 2) :
    redactPaths (List.replicate (n + 1) slash) = .ok (List.replicate (n + 1) slash) ∧
      HasPath true (List.replicate (n + 1) slash) := by
  have hword : ∀ n, space ∉ List.replicate n slash := fun n h =>
    absurd (List.eq_of_mem_replicate h) (by decide)
  have hslashes : slashes (slash :: List.replicate n slash) = n + 1 := by
    rw [← List.replicate_succ, slashes_of_notMem (hword (n + 1)), List.count_replicate_self]
  have hspace : isspace slash = false := by decide
  constructor
  · rw [redactPaths_eq, List.replicate_succ, hidePaths, hslashes,
      if_neg fun h => absurd h.2.2 (Int.not_le.mpr hint), hspace, hidePaths_replicate]
  · rw [List.replicate_succ, hasPath_slash (hword n), List.mem_replicate]
    exact ⟨Nat.one_le_iff_ne_zero.mp hn, rfl⟩

/-- 2^31 slashes: the count is `INT_MIN`. -/
theorem redactPaths_misses :
    redactPaths (List.replicate (2147483647 + 1) slash) =
        .ok (List.replicate (2147483647 + 1) slash) ∧
      HasPath true (List.replicate (2147483647 + 1) slash) :=
  redactPaths_replicate (by decide) (by decide)

end ResponseSanitizer

end McpToolkit
