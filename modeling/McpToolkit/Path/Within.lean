import McpToolkit.Path.Validator
/-!
# Accepted paths stay in the base directory

The validator compares the texts of two canonical paths.  A separator at the end of the
base makes the prefix of the text a prefix of the list of components.
-/

namespace McpToolkit

/-- An absolute path without empty components, `.` and `..`.  One separator may stand at
its end, and does at the end of the root. -/
structure CanonicalPath where
  components : List Bytes
  trailing : Bool
  proper : ∀ c ∈ components, c ≠ [] ∧ slash ∉ c ∧ c ≠ ascii "." ∧ c ≠ ascii ".."

namespace CanonicalPath

/-- The components, each behind a separator. -/
def joined (components : List Bytes) : Bytes := components.flatMap (slash :: ·)

/-- The path as `string` renders it. -/
def text (p : CanonicalPath) : Bytes :=
  joined p.components ++ if p.trailing ∨ p.components = [] then [slash] else []

theorem slash_notMem (p : CanonicalPath) : ∀ c ∈ p.components, slash ∉ c :=
  fun c hc => (p.proper c hc).2.1

theorem joined_cons (c : Bytes) (cs : List Bytes) :
    joined (c :: cs) = slash :: (c ++ joined cs) := rfl

/-! ## From the text to the components -/

/-- What may come behind a component: nothing or a separator. -/
def EndsComponent (r : Bytes) : Prop := r = [] ∨ ∃ t, r = slash :: t

theorem joined_endsComponent (cs : List Bytes) {r : Bytes} (hr : EndsComponent r) :
    EndsComponent (joined cs ++ r) := by
  cases cs with
  | nil => exact hr
  | cons c cs => exact .inr ⟨_, rfl⟩

/-- A component that is followed by a separator is not cut off. -/
theorem component_prefix {c d x r : Bytes} (hc : slash ∉ c) (hd : slash ∉ d)
    (hr : EndsComponent r) (h : c ++ slash :: x <+: d ++ r) : c = d ∧ slash :: x <+: r := by
  induction c generalizing d with
  | nil =>
      cases d with
      | nil => exact ⟨rfl, h⟩
      | cons b d =>
          have hb := (List.cons_prefix_cons.mp h).1
          exact absurd (hb ▸ List.mem_cons_self) hd
  | cons a c ih =>
      rw [List.mem_cons, not_or] at hc
      cases d with
      | nil =>
          rcases hr with rfl | ⟨t, rfl⟩
          · cases List.prefix_nil.mp h
          · exact absurd (List.cons_prefix_cons.mp h).1.symm hc.1
      | cons b d =>
          rw [List.mem_cons, not_or] at hd
          obtain ⟨rfl, hrest⟩ := List.cons_prefix_cons.mp h
          obtain ⟨rfl, hx⟩ := ih hc.2 hd.2 hrest
          exact ⟨rfl, hx⟩

/-- The components of a base with a separator at its end are the first ones of every path
that its text starts. -/
theorem joined_prefix {bs cs : List Bytes} {r : Bytes} (hbs : ∀ b ∈ bs, slash ∉ b)
    (hcs : ∀ c ∈ cs, slash ∉ c) (hr : r = [] ∨ r = [slash])
    (h : joined bs ++ [slash] <+: joined cs ++ r) : bs <+: cs := by
  induction bs generalizing cs with
  | nil => exact List.nil_prefix
  | cons b bs ih =>
      rw [List.forall_mem_cons] at hbs
      rw [joined_cons, List.cons_append, List.append_assoc] at h
      cases cs with
      | nil =>
          have hlength := h.length_le
          rcases hr with rfl | rfl <;> simp [joined] at hlength
      | cons c cs =>
          rw [List.forall_mem_cons] at hcs
          rw [joined_cons, List.cons_append, List.append_assoc, List.cons_prefix_cons] at h
          obtain ⟨x, hx⟩ : ∃ x, joined bs ++ [slash] = slash :: x := by
            cases bs with
            | nil => exact ⟨[], rfl⟩
            | cons b' bs => exact ⟨_, rfl⟩
          have hends : EndsComponent r := hr.imp_right fun h => ⟨[], h⟩
          rw [hx] at h
          obtain ⟨rfl, hrest⟩ := component_prefix hbs.1 hcs.1
            (joined_endsComponent cs hends) h.2
          rw [← hx] at hrest
          exact List.cons_prefix_cons.mpr ⟨rfl, ih hbs.2 hcs.2 hrest⟩

/-- The base as the validator compares it. -/
def withSeparator (base : Bytes) : Bytes :=
  if base ≠ [] ∧ base.getLast? ≠ some slash then base ++ [slash] else base

theorem withSeparator_text (p : CanonicalPath) :
    withSeparator p.text = joined p.components ++ [slash] := by
  rw [withSeparator, text]
  by_cases htrailing : p.trailing = true ∨ p.components = []
  · rw [if_pos htrailing, if_neg]
    rintro ⟨-, hlast⟩
    exact hlast List.getLast?_concat
  · rw [if_neg htrailing, List.append_nil, if_pos]
    rw [not_or] at htrailing
    obtain ⟨cs, c, hcs⟩ := (List.eq_nil_or_concat p.components).resolve_left htrailing.2
    have hc : c ≠ [] ∧ slash ∉ c := by
      have hproper := p.proper c (by rw [hcs, List.concat_eq_append]; simp)
      exact ⟨hproper.1, hproper.2.1⟩
    have hlast : (joined p.components).getLast? = some (c.getLast hc.1) := by
      rw [hcs, List.concat_eq_append, joined, List.flatMap_append, List.flatMap_singleton,
        List.getLast?_append_cons, List.getLast?_cons, List.getLast?_eq_some_getLast hc.1]
      rfl
    refine ⟨?_, ?_⟩
    · intro hnil
      rw [hnil] at hlast
      cases hlast
    · rw [hlast]
      intro h
      exact hc.2 (Option.some.inj h ▸ List.getLast_mem hc.1)

/-- A base whose text starts the text of a path has its components in front. -/
theorem components_prefix {base path : CanonicalPath}
    (h : withSeparator base.text <+: path.text) : base.components <+: path.components := by
  rw [withSeparator_text, text] at h
  refine joined_prefix base.slash_notMem path.slash_notMem ?_ h
  split_ifs
  · exact .inr rfl
  · exact .inl rfl

end CanonicalPath

namespace PathValidator

open CanonicalPath

section filesystem

variable {weaklyCanonical : Bytes → Except Bytes Bytes}

/-- An accepted path has got to the file system, and what comes back starts with the base. -/
theorem resolvesWithin_of_safe {v : PathValidator} {userPath : Bytes}
    (h : isSafePath weaklyCanonical v userPath = .ok none) :
    resolvesWithin weaklyCanonical v userPath = .ok true := by
  unfold isSafePath at h
  split at h
  · cases h
  split at h
  · cases h
  split at h
  · cases h
  obtain ⟨encoded, -, h⟩ := bind_eq_ok h
  split at h
  · cases h
  split at h
  · cases h
  cases hresolves : resolvesWithin weaklyCanonical v userPath with
  | error what =>
      rw [hresolves] at h
      cases h
  | ok inside =>
      rw [hresolves] at h
      cases inside with
      | false => cases h
      | true => rfl

theorem resolvesWithin_true {v : PathValidator} {userPath : Bytes}
    (h : resolvesWithin weaklyCanonical v userPath = .ok true) :
    ∃ base canonical, weaklyCanonical v.config.baseDirectory = .ok base ∧
      weaklyCanonical (joinPath v.config.baseDirectory userPath) = .ok canonical ∧
      withSeparator base <+: canonical := by
  obtain ⟨canonical, hcanonical, h⟩ := bind_eq_ok h
  obtain ⟨base, hbase, h⟩ := bind_eq_ok h
  refine ⟨base, canonical, hbase, hcanonical, ?_⟩
  have hstarts : (canonical = withSeparator base || find canonical (withSeparator base) 0 = some 0) =
      true := Except.ok.inj h
  rw [Bool.or_eq_true, decide_eq_true_eq, decide_eq_true_eq, find_zero] at hstarts
  rcases hstarts with heq | hlead
  · exact heq ▸ List.prefix_rfl
  · exact hlead

/-- What a validator accepts lies below its base directory: the components of the base are
the first ones of the path, and no name that is only longer takes the place of the last. -/
theorem isSafePath_within
    (hcanonical : ∀ p q, weaklyCanonical p = .ok q → ∃ path : CanonicalPath, path.text = q)
    (v : PathValidator) (userPath : Bytes)
    (h : isSafePath weaklyCanonical v userPath = .ok none) :
    ∃ base path : CanonicalPath, weaklyCanonical v.config.baseDirectory = .ok base.text ∧
      weaklyCanonical (joinPath v.config.baseDirectory userPath) = .ok path.text ∧
      base.components <+: path.components ∧
      ∀ parent name more, base.components = parent ++ [name] → more ≠ [] →
        ¬ parent ++ [name ++ more] <+: path.components := by
  obtain ⟨b, c, hb, hc, hlead⟩ := resolvesWithin_true (resolvesWithin_of_safe h)
  obtain ⟨base, rfl⟩ := hcanonical _ b hb
  obtain ⟨path, rfl⟩ := hcanonical _ c hc
  have hcomponents := components_prefix hlead
  refine ⟨base, path, hb, hc, hcomponents, fun parent name more hparent hmore hsibling => ?_⟩
  rw [hparent] at hcomponents
  have hlength : (parent ++ [name]).length = (parent ++ [name ++ more]).length := by
    rw [List.length_append, List.length_append, List.length_singleton, List.length_singleton]
  have hsame := (List.prefix_of_prefix_length_le hcomponents hsibling hlength.le).eq_of_length
    hlength
  have hname : name = name ++ more := (List.cons.inj (List.append_cancel_left hsame)).1
  exact hmore (List.self_eq_append_right.mp hname)

end filesystem

/-- A disk with a directory and a file in it. -/
def documentsDisk (path : Bytes) : Except Bytes Bytes :=
  if path = ascii "/documents/" then .ok (ascii "/documents")
  else if path = ascii "/documents/report.txt" then .ok path
  else .error (ascii "Input/output error")

/-- The validator of that directory. -/
def documentsValidator : PathValidator :=
  ({} : PathValidator).configure { baseDirectory := ascii "/documents/" }

theorem isSafePath_within_of_report :
    isSafePath documentsDisk documentsValidator (ascii "report.txt") = .ok none ∧
    ∃ base path : CanonicalPath,
      documentsDisk documentsValidator.config.baseDirectory = .ok base.text ∧
      documentsDisk (joinPath documentsValidator.config.baseDirectory (ascii "report.txt")) =
        .ok path.text ∧
      base.components <+: path.components ∧
      ∀ parent name more, base.components = parent ++ [name] → more ≠ [] →
        ¬ parent ++ [name ++ more] <+: path.components := by
  have hsafe : isSafePath documentsDisk documentsValidator (ascii "report.txt") = .ok none := by
    decide +kernel
  refine ⟨hsafe, isSafePath_within (fun p q h => ?_) documentsValidator (ascii "report.txt") hsafe⟩
  unfold documentsDisk at h
  split_ifs at h with hbase hfile
  · cases h
    exact ⟨⟨[ascii "documents"], false, by decide +kernel⟩, rfl⟩
  · cases h
    exact ⟨⟨[ascii "documents", ascii "report.txt"], false, by decide +kernel⟩, hfile.symm⟩

end PathValidator

end McpToolkit
