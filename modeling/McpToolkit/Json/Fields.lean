import McpToolkit.Json.Members
/-!
# Parsed messages

What each member does to the message, and the outcome of the refinement: the
parser returns without a fault on every input, and the message is read off the
members that `Scan.top` finds.
-/

namespace McpToolkit

open JsonParser Scan

/-- What a member of an error object does to the message of a buffer of length
`len`. -/
def ErrorField.apply (len : Nat) : ErrorField → MCPMessage → MCPMessage
  | .code n, msg => { msg with errorCode := n }
  | .message s, msg => { msg with errorMsg := s.span len }
  | .other _, msg => msg

/-- What a member of the top-level object does to the message. -/
def TopField.apply (len : Nat) : TopField → MCPMessage → MCPMessage
  | .method s, msg => { msg with method := s.span len, isRequest := true }
  | .id n, msg => { msg with id := some n }
  | .params v, msg => { msg with params := v.span len }
  | .result v, msg =>
      { msg with isResponse := true, hasResult := true, result := v.span len }
  | .error fields _, msg =>
      { fill (ErrorField.apply len) fields msg with hasError := true, isResponse := true }
  | .other _, msg => msg

theorem errorField_shrinks : Shrinks errorField := by
  intro key l r x h
  rw [errorField] at h
  split_ifs at h
  · obtain ⟨⟨n, r'⟩, hn, heq⟩ := Option.map_eq_some_iff.mp h
    cases heq
    exact int_suffix hn
  · obtain ⟨⟨s, r'⟩, hs, heq⟩ := Option.map_eq_some_iff.mp h
    cases heq
    exact content_suffix hs
  · obtain ⟨v, hv, heq⟩ := Option.map_eq_some_iff.mp h
    cases heq
    exact skipped_suffix hv

theorem topField_shrinks : Shrinks topField := by
  intro key l r x h
  rw [topField] at h
  split_ifs at h
  all_goals obtain ⟨y, hy, heq⟩ := Option.map_eq_some_iff.mp h
  all_goals cases heq
  · exact skipped_suffix hy
  · exact content_suffix hy
  · exact int_suffix hy
  · exact skipped_suffix hy
  · exact skipped_suffix hy
  · exact object_suffix errorField_shrinks hy
  · exact skipped_suffix hy

variable {input : Bytes} {m : Nat}

/-- A scanner whose result goes into one field of the message. -/
theorem yields_fills {β : Type} {run : Except Fault (Bool × β × JsonParser)}
    {o : Option (β × Bytes)} (h : Yields input m run o)
    {k : Bool × β × JsonParser → Except Fault (Bool × JsonParser × MCPMessage)}
    (f : β → MCPMessage) (hok : ∀ x p, k (true, x, p) = .ok (true, p, f x))
    (hfail : ∀ x p, ∃ msg, k (false, x, p) = .ok (false, p, msg)) :
    Fills input m (run >>= k) (o.map fun x => (f x.1, x.2)) := by
  cases o with
  | none =>
      obtain ⟨x, r, hr, hrun⟩ := h
      obtain ⟨msg, hmsg⟩ := hfail x (before input m r)
      exact ⟨msg, r, hr, by rw [hrun, ok_bind, hmsg]⟩
  | some xr =>
      obtain ⟨hr, hrun⟩ := h
      exact ⟨hr, by rw [hrun, ok_bind, hok]⟩

/-- A skipped value whose span the message keeps or drops. -/
theorem skipped_fills {r : Bytes} (h : r <:+ input) (out : Span) (f : Span → MCPMessage)
    {k : Bool × Span × JsonParser → Except Fault (Bool × JsonParser × MCPMessage)}
    (hk : ∀ x, k x = .ok (x.1, x.2.2, f x.2.1)) :
    Fills input m ((before input m r).skipValue out >>= k)
      ((skipped r).map fun v => (f (v.span input.length), v.stop)) := by
  have hv := yields_fills (skipValue_before (m := m) h out) (k := k) f (fun x p => hk (true, x, p))
    fun x p => ⟨f x, hk (false, x, p)⟩
  rw [Option.map_map] at hv
  exact hv

/-- A message that is completed once it has been filled in. -/
theorem completed_fills {run : Except Fault (Bool × JsonParser × MCPMessage)}
    {o : Option (MCPMessage × Bytes)} (h : Fills input m run o) (f : MCPMessage → MCPMessage) :
    Fills input m
      (do
        let (ok, p, msg) ← run
        if !ok then return (false, p, msg)
        return (true, p, f msg))
      (o.map fun x => (f x.1, x.2)) := by
  cases o with
  | none =>
      obtain ⟨msg, r, hr, hrun⟩ := h
      exact ⟨msg, r, hr, by rw [hrun]; rfl⟩
  | some x => exact ⟨h.1, by rw [h.2]; rfl⟩

theorem errorMember_reads :
    ReadsLike input m errorMember errorField (ErrorField.apply input.length) := by
  intro key r msg h
  rw [errorMember, errorField]
  split_ifs
  · rw [Option.map_map]
    exact yields_fills (parseInt_before h msg.errorCode) (fun n => { msg with errorCode := n })
      (fun _ _ => rfl) fun _ _ => ⟨_, rfl⟩
  · have hs := yields_fills (parseString_before (m := m) h msg.errorMsg)
      (k := fun x => return (x.1, x.2.2, { msg with errorMsg := x.2.1 }))
      (fun span => { msg with errorMsg := span }) (fun _ _ => rfl) fun _ _ => ⟨_, rfl⟩
    rw [Option.map_map] at hs ⊢
    exact hs
  · rw [Option.map_map]
    exact skipped_fills h {} (fun _ => msg) fun _ => rfl

theorem parseErrorObject_before {r : Bytes} (h : r <:+ input) (msg : MCPMessage) :
    Fills input m ((before input m r).parseErrorObject msg)
      ((object errorField r).map fun x =>
        ({ fill (ErrorField.apply input.length) x.1 msg with hasError := true }, x.2)) := by
  have hmembers := parseMembers_before (m := m) errorField_shrinks errorMember_reads h msg
  have hfills := completed_fills hmembers fun msg => { msg with hasError := true }
  rw [Option.map_map] at hfills
  exact hfills

theorem topMember_reads :
    ReadsLike input m topMember topField (TopField.apply input.length) := by
  intro key r msg h
  rw [topMember, topField]
  split_ifs
  all_goals rw [Option.map_map]
  · exact skipped_fills h {} (fun _ => msg) fun _ => rfl
  · have hs := yields_fills (parseString_before (m := m) h msg.method)
      (k := fun x => do
        if !x.1 then return (false, x.2.2, { msg with method := x.2.1 })
        return (true, x.2.2, { msg with method := x.2.1, isRequest := true }))
      (fun span => { msg with method := span, isRequest := true }) (fun _ _ => rfl)
      fun _ _ => ⟨_, rfl⟩
    rw [Option.map_map] at hs
    exact hs
  · exact yields_fills (parseInt_before h 0) (fun n => { msg with id := some n }) (fun _ _ => rfl)
      fun _ _ => ⟨_, rfl⟩
  · exact skipped_fills h msg.params (fun span => { msg with params := span }) fun _ => rfl
  · exact skipped_fills h msg.result
      (fun span => { msg with isResponse := true, hasResult := true, result := span })
      fun _ => rfl
  · have hfills := completed_fills (parseErrorObject_before (m := m) h msg)
      fun msg => { msg with isResponse := true }
    rw [Option.map_map] at hfills
    exact hfills
  · exact skipped_fills h {} (fun _ => msg) fun _ => rfl

/-- The message before its first member. -/
def MCPMessage.blank (s : Bytes) : MCPMessage := { rawInput := some s, rawLen := s.length }

/-- The message of a text with these members. -/
def MCPMessage.ofFields (s : Bytes) (fields : List TopField) : MCPMessage :=
  { fill (TopField.apply s.length) fields (.blank s) with valid := true }

theorem parse_eq {s : Bytes} {maxBytes : Nat} (hs : s ≠ []) (hmax : s.length ≤ maxBytes) :
    MCPMessage.parse (some s) maxBytes = (do
      let (valid, _, msg) ← parseMembers topMember ⟨s, 0, maxBytes⟩ (.blank s)
      return { msg with valid := valid }) := by
  have hlen : s.length ≠ 0 := fun h => hs (List.length_eq_zero_iff.mp h)
  have hle : ¬ s.length > maxBytes := Nat.not_lt_of_le hmax
  simp only [MCPMessage.parse, hlen, if_false, hle, JsonParser.parse, len, bind_assoc]
  rfl

/-- The parser reads its message off the members of the first object of a text
within the limit, and returns an invalid message when there is no such object. -/
theorem parse_refines {s : Bytes} {maxBytes : Nat} (hmax : s.length ≤ maxBytes) :
    match top s with
    | some (fields, _) => MCPMessage.parse (some s) maxBytes = .ok (.ofFields s fields)
    | none => ∃ msg, MCPMessage.parse (some s) maxBytes = .ok msg ∧ msg.valid = false := by
  rcases eq_or_ne s [] with rfl | hs
  · exact ⟨{}, rfl, rfl⟩
  have hobj := parseMembers_before (m := maxBytes) topField_shrinks topMember_reads
    (List.suffix_refl s) (.blank s)
  rw [before_self] at hobj
  rw [parse_eq hs hmax, top]
  cases ho : object topField s with
  | none =>
      rw [ho] at hobj
      obtain ⟨msg, r, -, hrun⟩ := hobj
      exact ⟨{ msg with valid := false }, by rw [hrun]; rfl, rfl⟩
  | some fr =>
      rw [ho] at hobj
      dsimp only
      rw [hobj.2]
      rfl

theorem parse_oversize {s : Bytes} {maxBytes : Nat} (hmax : maxBytes < s.length) :
    MCPMessage.parse (some s) maxBytes =
      .ok { MCPMessage.blank s with errorCode := parseErrorCode } := by
  have hlen : s.length ≠ 0 := Nat.ne_of_gt (Nat.zero_lt_of_lt hmax)
  simp only [MCPMessage.parse, hlen, if_false, gt_iff_lt, hmax, if_true]
  rfl

/-- A parse always returns, and a valid message is that of a text within the
limit that starts with an object the scanners accept. -/
theorem parse_cases (jsonStr : Option Bytes) (maxBytes : Nat) :
    (∃ msg, MCPMessage.parse jsonStr maxBytes = .ok msg ∧ msg.valid = false) ∨
      ∃ s fields r, jsonStr = some s ∧ s.length ≤ maxBytes ∧ top s = some (fields, r) ∧
        MCPMessage.parse jsonStr maxBytes = .ok (.ofFields s fields) := by
  cases jsonStr with
  | none => exact .inl ⟨{}, rfl, rfl⟩
  | some s =>
      by_cases hmax : s.length ≤ maxBytes
      · have h := parse_refines hmax
        cases ht : top s with
        | none =>
            rw [ht] at h
            exact .inl h
        | some fr =>
            rw [ht] at h
            exact .inr ⟨s, fr.1, fr.2, rfl, hmax, ht, h⟩
      · exact .inl ⟨_, parse_oversize (Nat.lt_of_not_le hmax), rfl⟩

theorem parse_valid {jsonStr : Option Bytes} {maxBytes : Nat} {msg : MCPMessage}
    (h : MCPMessage.parse jsonStr maxBytes = .ok msg) (hvalid : msg.valid) :
    ∃ s fields r, jsonStr = some s ∧ s.length ≤ maxBytes ∧ top s = some (fields, r) ∧
      msg = .ofFields s fields := by
  rcases parse_cases jsonStr maxBytes with ⟨msg', h', hinvalid⟩ | ⟨s, fields, r, hs, hmax, ht, h'⟩
  · rw [h] at h'
    cases h'
    rw [hvalid] at hinvalid
    cases hinvalid
  · rw [h] at h'
    cases h'
    exact ⟨s, fields, r, hs, hmax, ht, rfl⟩

end McpToolkit
