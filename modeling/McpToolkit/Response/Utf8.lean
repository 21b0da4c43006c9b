import McpToolkit.Base.Utf8
import McpToolkit.Response.Hidden
/-!
# Characters in what is returned

The two passes keep whole characters whole.  The cut at the size limit does not: the
front of a character is left before the marker, unless a hidden path takes it away.
-/

namespace McpToolkit

namespace ResponseSanitizer

/-! ## Hiding paths -/

theorem utf8_pathMarker : Utf8 pathMarker := utf8_ascii (by decide)

/-- A path starts and ends at octets below 128. -/
theorem utf8_hidePaths {start : Bool} {s : Bytes} (before : Bytes) (h : Utf8 (before ++ s)) :
    Utf8 (before ++ hidePaths start s) := by
  induction start, s using hidePaths.induct generalizing before with
  | case1 start =>
      rw [hidePaths]
      exact h
  | case2 start b t hpath ih =>
      obtain ⟨-, rfl, -⟩ := id hpath
      obtain ⟨hbefore, ht⟩ := (utf8_append_cons (by decide) before t).mp h
      have hafter : Utf8 (afterWord t) := by
        rcases word_cases t with hw | ⟨w, r, hw, rfl⟩
        · rw [afterWord_of_notMem hw]
          exact .nil
        · rw [afterWord_append hw]
          have hr := ((utf8_append_cons (by decide) w r).mp ht).2
          exact (utf8_append_cons (by decide) [] r).mpr ⟨.nil, hr⟩
      rw [hidePaths, if_pos hpath]
      exact hbefore.append (utf8_pathMarker.append (ih [] hafter))
  | case3 start b t hpath ih =>
      rw [hidePaths, if_neg hpath, List.append_cons]
      refine ih (before ++ [b]) ?_
      rwa [← List.append_cons]

theorem utf8_visible (config : SanitizeConfig) {text : Bytes} (h : Utf8 text) :
    Utf8 (visible config text) := by
  rw [visible]
  split_ifs
  · exact utf8_hidePaths [] h
  · exact h

/-! ## Escaping -/

theorem escaped_ascii :
    ∀ c, Escaped c → c < 0x80 ∧ escapeControl c ≠ [] ∧ (escapeControl c).all (· < 0x80) :=
  escaped_induction (by decide) (by decide) (by decide)

/-- Only octets below 128 are escaped, and only such octets are written for them. -/
theorem utf8_escape (before v : Bytes) :
    Utf8 (before ++ escapeControlCharacters v) ↔ Utf8 (before ++ v) := by
  induction v generalizing before with
  | nil => rfl
  | cons c t ih =>
      have hcons : escapeControlCharacters (c :: t) =
          escapeControl c ++ escapeControlCharacters t := List.flatMap_cons
      rw [hcons]
      by_cases hc : Escaped c
      · obtain ⟨hascii, hne, hescape⟩ := escaped_ascii c hc
        have ht := ih []
        rw [List.nil_append, List.nil_append] at ht
        rw [utf8_append_ascii hescape hne, ht, utf8_append_cons hascii]
      · rw [Escaped, ne_eq, not_not] at hc
        rw [hc, List.singleton_append, List.append_cons, ih, ← List.append_cons]

theorem utf8_rewritten (config : SanitizeConfig) (text : Bytes) :
    Utf8 (rewritten config text) ↔ Utf8 (visible config text) := by
  rw [rewritten]
  split_ifs
  · exact utf8_escape [] _
  · rfl

/-! ## The cut -/

theorem utf8_truncationMarker : Utf8 truncationMarker := utf8_ascii (by decide)

theorem truncationMarker_eq : truncationMarker = newline :: ascii "[OUTPUT TRUNCATED]" := rfl

theorem slash_notMem_truncationMarker : slash ∉ truncationMarker := by decide

/-- A broken character before the marker stays, unless it is in a path. -/
theorem utf8_visible_cut {whole broken : Bytes} (config : SanitizeConfig) (hwhole : Utf8 whole)
    (hbroken : ¬ Utf8 broken) (hascii : ∀ b ∈ broken, ¬ b < 0x80) :
    Utf8 (visible config (whole ++ broken ++ truncationMarker)) ↔
      config.redactPaths = true ∧ Hidden (whole ++ broken) truncationMarker := by
  have hslash : slash ∉ broken := fun hmem => hascii slash hmem (by decide)
  have hspace : space ∉ broken := fun hmem => hascii space hmem (by decide)
  have hrest : slash ∉ broken ++ truncationMarker := by
    rw [List.mem_append, not_or]
    exact ⟨hslash, slash_notMem_truncationMarker⟩
  have hstays : ∀ done, Utf8 done → ¬ Utf8 (done ++ (broken ++ truncationMarker)) := by
    intro done hdone h
    rw [← List.append_assoc, truncationMarker_eq, utf8_append_cons (by decide)] at h
    exact hbroken ((utf8_append_iff hdone broken).mp h.1)
  rw [visible]
  cases config.redactPaths with
  | false =>
      rw [if_neg Bool.false_ne_true, List.append_assoc]
      exact iff_of_false (hstays whole hwhole) fun h => Bool.false_ne_true h.1
  | true =>
      rw [if_pos rfl, and_iff_right rfl]
      obtain ⟨done, hdone⟩ := redacted_append [] whole
      have hmarker := hdone truncationMarker slash_notMem_truncationMarker
      have hfull : Utf8 (done ++ redacted whole truncationMarker) := by
        have htext : Utf8 (hidePaths true (whole ++ truncationMarker)) :=
          utf8_hidePaths [] (hwhole.append utf8_truncationMarker)
        rw [← redacted_start, hmarker] at htext
        exact htext
      have hhidden : Hidden (whole ++ broken) truncationMarker ↔ Hidden whole [] := by
        rw [hidden_extend hslash hspace, ← List.nil_append (broken ++ _), hidden_append hrest]
      rw [redacted_of_notMem slash_notMem_truncationMarker] at hfull
      rw [← redacted_start, List.append_assoc, hdone _ hrest, hhidden, List.nil_append,
        redacted_of_notMem hrest]
      by_cases h : Hidden whole []
      · rw [if_pos h] at hfull ⊢
        rw [afterWord_append_of_notMem hspace]
        exact iff_of_true hfull h
      · rw [if_neg h] at hfull ⊢
        rw [truncationMarker_eq, utf8_append_cons (by decide)] at hfull
        exact iff_of_false (hstays done hfull.1) h

/-- What is returned for a text in UTF-8 is in UTF-8 exactly if the text is not cut, not
cut in a character, refused, or cut in a path that is hidden. -/
theorem sanitize_utf8_iff {response : Bytes} (h : Utf8 response) (config : SanitizeConfig) :
    ∃ result error, sanitize response config = .ok (result, error) ∧
      (Utf8 result ↔ config.truncateOnSizeExceeded = false ∨
        (∀ b, response[config.maxResponseSize]? = some b → b.IsUTF8FirstByte) ∨
        containsInjectionPatterns
          (response.take config.maxResponseSize ++ truncationMarker) = true ∨
        (config.redactPaths = true ∧
          Hidden (response.take config.maxResponseSize) truncationMarker)) := by
  obtain ⟨result, error, hsanitize, hresult⟩ := sanitize_iff (P := fun result _ => Utf8 result)
    response config (fun _ => .nil) fun text _ => utf8_rewritten config text
  refine ⟨result, error, hsanitize, hresult.trans ?_⟩
  rcases Nat.lt_or_ge config.maxResponseSize response.length with hlong | hshort
  · cases htruncate : config.truncateOnSizeExceeded with
    | false =>
        have hlimited : limited response config = none := by
          rw [limited, if_pos hlong, htruncate, if_neg Bool.false_ne_true]
        rw [hlimited]
        exact iff_of_true (fun text h => by cases h) (.inl rfl)
    | true =>
        have hlimited : limited response config =
            some (response.take config.maxResponseSize ++ truncationMarker) := by
          rw [limited, if_pos hlong, htruncate, if_pos rfl]
        simp only [hlimited, Option.some.injEq, forall_eq', Bool.true_eq_false, false_or]
        rcases utf8_take h config.maxResponseSize with ⟨hfirst, htake⟩ |
          ⟨⟨b, hb, hinner⟩, whole, broken, htake, hwhole, hbroken, hascii⟩
        · have hvisible := utf8_visible config (htake.append utf8_truncationMarker)
          exact iff_of_true (.inr hvisible) (.inl hfirst)
        · have hinside : ¬ ∀ b, response[config.maxResponseSize]? = some b → b.IsUTF8FirstByte :=
            fun hfirst => hinner (hfirst b hb)
          rw [htake, utf8_visible_cut config hwhole hbroken hascii, or_iff_right hinside]
  · have hlimited : limited response config = some response := by
      rw [limited, if_neg (Nat.not_lt.mpr hshort)]
    have hget : response[config.maxResponseSize]? = none := List.getElem?_eq_none hshort
    rw [hlimited, hget]
    refine iff_of_true ?_ (.inr (.inl fun b hb => by cases hb))
    rintro _ ⟨⟩
    exact .inr (utf8_visible config h)

theorem utf8_accent : Utf8 [0xC3, 0xA9] := ⟨['é'], rfl⟩

/-- A response that is cut between two characters, and has a path in front of them. -/
theorem sanitize_utf8_iff_of_accent :
    ∃ result error, sanitize (ascii "/a/b " ++ [0xC3, 0xA9, 0xC3, 0xA9])
        { maxResponseSize := 7 } = .ok (result, error) ∧
      result = ascii "/[PATH] " ++ [0xC3, 0xA9] ++ ascii "\\n[OUTPUT TRUNCATED]" ∧
      Utf8 result := by
  have hresponse : Utf8 (ascii "/a/b " ++ [0xC3, 0xA9, 0xC3, 0xA9]) :=
    ⟨['/', 'a', '/', 'b', ' ', 'é', 'é'], by decide +kernel⟩
  obtain ⟨result, error, hsanitize, hresult⟩ :=
    sanitize_utf8_iff hresponse { maxResponseSize := 7 }
  have hcomputed : sanitize (ascii "/a/b " ++ [0xC3, 0xA9, 0xC3, 0xA9])
      { maxResponseSize := 7 } = .ok (ascii "/[PATH] " ++ [0xC3, 0xA9] ++
        ascii "\\n[OUTPUT TRUNCATED]", none) := by
    decide +kernel
  refine ⟨result, error, hsanitize, ?_, hresult.mpr (.inr (.inl ?_))⟩
  · rw [hcomputed] at hsanitize
    cases hsanitize
    rfl
  · intro b hb
    cases hb
    decide

/-- A character of two octets is cut after the first one. -/
theorem sanitize_breaks_character : Utf8 [0xC3, 0xA9] ∧
    ∃ result, sanitize [0xC3, 0xA9] { maxResponseSize := 1 } = .ok (result, none) ∧
      ¬ Utf8 result := by
  have haccent : [0xC3] ++ [0xA9] = String.utf8EncodeChar 'é' := rfl
  refine ⟨utf8_accent, [0xC3] ++ backslash :: ascii "n[OUTPUT TRUNCATED]", rfl, fun h => ?_⟩
  have hfront := ((utf8_append_cons (by decide) _ _).mp h).1
  exact not_utf8_front haccent (List.cons_ne_nil _ _) (List.cons_ne_nil _ _) hfront

end ResponseSanitizer

end McpToolkit
