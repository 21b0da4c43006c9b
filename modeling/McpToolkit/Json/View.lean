import McpToolkit.Json.Complete
/-!
# What a message says

The content of a message as the grammar has it: of every known key the last
member, of the error objects the last code and the last message.  The parser
returns it for every object in the grammar whose known members are of the right
types, and so depends on nothing else in the text.
-/

namespace McpToolkit

open JsonParser Scan

/-! ## The content of an object -/

/-- The content of a message, apart from where it stands in the buffer. -/
structure View where
  method : Option Bytes
  id : Option Int
  params : Option Bytes
  result : Option Bytes
  errorCode : Int
  errorMsg : Option Bytes
  isRequest : Bool
  isResponse : Bool
  hasResult : Bool
  hasError : Bool

/-- The value of the last member with a key. -/
def lastValue (ms : List (Bytes × Value)) (key : Bytes) : Option Value :=
  (ms.reverse.find? fun m => m.1 = key).map (·.2)

/-- The members of all error objects, in order. -/
def errorMembers (ms : List (Bytes × Value)) : List (Bytes × Value) :=
  ms.flatMap fun m => if m.1 = ascii "error" then m.2.members else []

/-- The content of an object with members `ms`, and `es` in its error objects. -/
def View.ofParts (ms es : List (Bytes × Value)) : View where
  method := (lastValue ms (ascii "method")).bind Value.string?
  id := (lastValue ms (ascii "id")).bind Value.int?
  params := (lastValue ms (ascii "params")).map Value.text
  result := (lastValue ms (ascii "result")).map Value.text
  errorCode := ((lastValue es (ascii "code")).bind Value.int?).getD 0
  errorMsg := (lastValue es (ascii "message")).bind Value.string?
  isRequest := (lastValue ms (ascii "method")).isSome
  isResponse := (lastValue ms (ascii "result")).isSome || (lastValue ms (ascii "error")).isSome
  hasResult := (lastValue ms (ascii "result")).isSome
  hasError := (lastValue ms (ascii "error")).isSome

def View.of (ms : List (Bytes × Value)) : View := View.ofParts ms (errorMembers ms)

/-- The span covers the text, or is null when there is none. -/
def Span.Reads (s : Span) (buf : Bytes) : Option Bytes → Prop
  | none => s.IsNull
  | some t => s.start ≠ none ∧ s.text buf = .ok t

structure MCPMessage.Shows (buf : Bytes) (msg : MCPMessage) (view : View) : Prop where
  method : msg.method.Reads buf view.method
  id : msg.id = view.id
  params : msg.params.Reads buf view.params
  result : msg.result.Reads buf view.result
  errorCode : msg.errorCode = view.errorCode
  errorMsg : msg.errorMsg.Reads buf view.errorMsg
  isRequest : msg.isRequest = view.isRequest
  isResponse : msg.isResponse = view.isResponse
  hasResult : msg.hasResult = view.hasResult
  hasError : msg.hasError = view.hasError

/-! ## Members of the right types -/

/-- A member of an error object: `code` is an integer in range and `message` a
string. -/
structure ErrorAdmissible (m : Bytes × Value) : Prop where
  code : m.1 = ascii "code" → ∃ n, m.2.int? = some n ∧ n.natAbs ≤ intMax
  message : m.1 = ascii "message" → ∃ s, m.2.string? = some s

/-- A member of a message: within the depth limit, `id` an integer in range,
`method` a string and `error` an object. -/
structure Admissible (m : Bytes × Value) : Prop where
  depth : m.2.depth ≤ kMaxDepth
  method : m.1 = ascii "method" → ∃ s, m.2.string? = some s
  id : m.1 = ascii "id" → ∃ n, m.2.int? = some n ∧ n.natAbs ≤ intMax
  error : m.1 = ascii "error" → m.2.isObject ∧ ∀ e ∈ m.2.members, ErrorAdmissible e

theorem Entries.depth_members {k : Kind} : ∀ (es : Entries k), ∀ m ∈ es.members,
    m.2.depth ≤ es.depth
  | .last w l v w', m, hm => by
      rw [List.mem_singleton.mp hm]
      exact le_rfl
  | .more w l v w' es, m, hm => by
      rw [Entries.depth]
      rcases List.mem_cons.mp hm with rfl | hm
      · exact le_max_left _ _
      · exact (es.depth_members m hm).trans (le_max_right _ _)

theorem Value.depth_members {v : Value} {m : Bytes × Value} (hm : m ∈ v.members) :
    m.2.depth < v.depth := by
  cases v with
  | container k es =>
      cases k with
      | array => cases hm
      | object => exact Nat.lt_succ_of_le (es.depth_members m hm)
  | literal l => cases hm
  | number n => cases hm
  | string s => cases hm
  | empty k w => cases hm

theorem skipped_text (w : Ws) {v : Value} {r : Bytes} (hdepth : v.depth ≤ kMaxDepth)
    (hr : EndsNumber r) : skipped (w.text ++ (v.text ++ r)) = some ⟨v.text ++ r, r⟩ := by
  rw [skipped, w.blanks_solid (v.solid r), value_text v hdepth hr]
  rfl

theorem content_text (w : Ws) {v : Value} {t r : Bytes} (hv : v.string? = some t) :
    content (w.text ++ (v.text ++ r)) = some (⟨t ++ quote :: r, quote :: r⟩, r) := by
  cases v with
  | string s =>
      cases hv
      have := content_str w s r
      simpa [Value.text] using this
  | literal l => cases hv
  | number n => cases hv
  | empty k w => cases hv
  | container k es => cases hv

theorem int_text (w : Ws) {v : Value} {n : Int} {r : Bytes} (hv : v.int? = some n)
    (hn : n.natAbs ≤ intMax) (hr : EndsNumber r) :
    int (w.text ++ (v.text ++ r)) = some (n, r) := by
  cases v with
  | number k => exact int_number w hv hn hr
  | literal l => cases hv
  | string s => cases hv
  | empty k w => cases hv
  | container k es => cases hv

/-- The member that the scanners find for a member of an error object. -/
def ErrorField.Matches (m : Bytes × Value) (f : ErrorField) : Prop :=
  if m.1 = ascii "code" then ∃ n, f = .code n ∧ m.2.int? = some n
  else if m.1 = ascii "message" then ∃ s, f = .message s ∧ m.2.string? = some s.text
  else ∃ v, f = .other v

/-- The member that the scanners find for a member of a message. -/
def TopField.Matches (m : Bytes × Value) (f : TopField) : Prop :=
  if m.1 = ascii "method" then ∃ s, f = .method s ∧ m.2.string? = some s.text
  else if m.1 = ascii "id" then ∃ n, f = .id n ∧ m.2.int? = some n
  else if m.1 = ascii "params" then ∃ v, f = .params v ∧ v.text = m.2.text
  else if m.1 = ascii "result" then ∃ v, f = .result v ∧ v.text = m.2.text
  else if m.1 = ascii "error" then
    ∃ fields v, f = .error fields v ∧ List.Forall₂ ErrorField.Matches m.2.members fields
  else ∃ v, f = .other v

theorem finds_errorField {m : Bytes × Value} (h : ErrorAdmissible m)
    (hdepth : m.2.depth ≤ kMaxDepth) : Finds errorField ErrorField.Matches m := by
  intro w r hr
  by_cases hcode : m.1 = ascii "code"
  · obtain ⟨n, hn, hle⟩ := h.code hcode
    refine ⟨.code n, ?_, ?_⟩
    · rw [errorField, if_pos hcode, int_text w hn hle hr]
      rfl
    · rw [ErrorField.Matches, if_pos hcode]
      exact ⟨n, rfl, hn⟩
  by_cases hmessage : m.1 = ascii "message"
  · obtain ⟨t, ht⟩ := h.message hmessage
    refine ⟨.message ⟨t ++ quote :: r, quote :: r⟩, ?_, ?_⟩
    · rw [errorField, if_neg hcode, if_pos hmessage, content_text w ht]
      rfl
    · rw [ErrorField.Matches, if_neg hcode, if_pos hmessage]
      exact ⟨_, rfl, by rw [Slice.text_append, ht]⟩
  · refine ⟨.other ⟨m.2.text ++ r, r⟩, ?_, ?_⟩
    · rw [errorField, if_neg hcode, if_neg hmessage, skipped_text w hdepth hr]
      rfl
    · rw [ErrorField.Matches, if_neg hcode, if_neg hmessage]
      exact ⟨_, rfl⟩

theorem finds_topField {m : Bytes × Value} (h : Admissible m) :
    Finds topField TopField.Matches m := by
  obtain ⟨key, v⟩ := m
  intro w r hr
  have hskipped : skipped (w.text ++ (v.text ++ r)) = some ⟨v.text ++ r, r⟩ :=
    skipped_text w h.depth hr
  have hslice : Slice.text ⟨v.text ++ r, r⟩ = v.text := Slice.text_append _ _
  dsimp only
  by_cases hmethod : key = ascii "method"
  · obtain ⟨t, ht⟩ := h.method hmethod
    have hcontent : content (w.text ++ (v.text ++ r)) = _ := content_text w ht
    subst hmethod
    refine ⟨.method ⟨t ++ quote :: r, quote :: r⟩, ?_, _, rfl, by rw [Slice.text_append, ht]⟩
    show (content _).map _ = _
    rw [hcontent]
    rfl
  by_cases hid : key = ascii "id"
  · obtain ⟨n, hn, hle⟩ := h.id hid
    have hint : int (w.text ++ (v.text ++ r)) = _ := int_text w hn hle hr
    subst hid
    refine ⟨.id n, ?_, n, rfl, hn⟩
    show (int _).map _ = _
    rw [hint]
    rfl
  by_cases hparams : key = ascii "params"
  · subst hparams
    refine ⟨.params ⟨v.text ++ r, r⟩, ?_, _, rfl, hslice⟩
    show (skipped _).map _ = _
    rw [hskipped]
    rfl
  by_cases hresult : key = ascii "result"
  · subst hresult
    refine ⟨.result ⟨v.text ++ r, r⟩, ?_, _, rfl, hslice⟩
    show (skipped _).map _ = _
    rw [hskipped]
    rfl
  by_cases herror : key = ascii "error"
  · obtain ⟨hobj, hes⟩ := h.error herror
    have hfinds : ∀ e ∈ v.members, Finds errorField ErrorField.Matches e := fun e he =>
      finds_errorField (hes e he)
        ((Nat.le_of_lt (Value.depth_members he)).trans h.depth)
    obtain ⟨fields, hfields, hmatches⟩ := object_scan errorField_shrinks hobj hfinds w r
    subst herror
    refine ⟨.error fields ⟨blanks (w.text ++ (v.text ++ r)), r⟩, ?_, _, _, rfl, hmatches⟩
    show (object errorField _).map _ = _
    rw [hfields]
    rfl
  · refine ⟨.other ⟨v.text ++ r, r⟩, ?_, ?_⟩
    · by_cases hjsonrpc : key = ascii "jsonrpc"
      · rw [topField, if_pos hjsonrpc, hskipped]
        rfl
      · rw [topField, if_neg hjsonrpc, if_neg hmethod, if_neg hid, if_neg hparams,
          if_neg hresult, if_neg herror, hskipped]
        rfl
    · rw [TopField.Matches, if_neg hmethod, if_neg hid, if_neg hparams, if_neg hresult,
        if_neg herror]
      exact ⟨_, rfl⟩

/-! ## The last members win -/

section concat

variable (ms : List (Bytes × Value)) (v : Value)

theorem lastValue_concat (name key : Bytes) :
    lastValue (ms ++ [(name, v)]) key = if name = key then some v else lastValue ms key := by
  rw [lastValue, List.reverse_concat, List.find?_cons]
  by_cases h : name = key
  · rw [if_pos h, decide_eq_true h]
    rfl
  · rw [if_neg h, decide_eq_false h]
    rfl

theorem lastValue_concat_self (key : Bytes) : lastValue (ms ++ [(key, v)]) key = some v := by
  rw [lastValue_concat, if_pos rfl]

theorem lastValue_concat_of_ne {name key : Bytes} (h : name ≠ key) :
    lastValue (ms ++ [(name, v)]) key = lastValue ms key := by
  rw [lastValue_concat, if_neg h]

theorem errorMembers_concat_of_ne {name : Bytes} (h : name ≠ ascii "error") :
    errorMembers (ms ++ [(name, v)]) = errorMembers ms := by
  simp [errorMembers, h]

theorem errorMembers_concat_self :
    errorMembers (ms ++ [(ascii "error", v)]) = errorMembers ms ++ v.members := by
  simp [errorMembers]

theorem View.of_method : View.of (ms ++ [(ascii "method", v)]) =
    { View.of ms with method := v.string?, isRequest := true } := by
  rw [View.of, errorMembers_concat_of_ne ms v (by decide)]
  simp only [View.ofParts, lastValue_concat]
  rfl

theorem View.of_id : View.of (ms ++ [(ascii "id", v)]) = { View.of ms with id := v.int? } := by
  rw [View.of, errorMembers_concat_of_ne ms v (by decide)]
  simp only [View.ofParts, lastValue_concat]
  rfl

theorem View.of_params : View.of (ms ++ [(ascii "params", v)]) =
    { View.of ms with params := some v.text } := by
  rw [View.of, errorMembers_concat_of_ne ms v (by decide)]
  simp only [View.ofParts, lastValue_concat]
  rfl

theorem View.of_result : View.of (ms ++ [(ascii "result", v)]) =
    { View.of ms with result := some v.text, isResponse := true, hasResult := true } := by
  rw [View.of, errorMembers_concat_of_ne ms v (by decide)]
  simp only [View.ofParts, lastValue_concat]
  rfl

theorem View.of_error : View.of (ms ++ [(ascii "error", v)]) =
    { View.ofParts ms (errorMembers ms ++ v.members) with isResponse := true, hasError := true } := by
  rw [View.of, errorMembers_concat_self]
  simp only [View.ofParts, lastValue_concat, if_true, Option.isSome_some, Bool.or_true]
  rfl

theorem View.of_other {name : Bytes} (hmethod : name ≠ ascii "method") (hid : name ≠ ascii "id")
    (hparams : name ≠ ascii "params") (hresult : name ≠ ascii "result")
    (herror : name ≠ ascii "error") : View.of (ms ++ [(name, v)]) = View.of ms := by
  rw [View.of, View.of, errorMembers_concat_of_ne ms v herror, View.ofParts, View.ofParts,
    lastValue_concat_of_ne ms v hmethod, lastValue_concat_of_ne ms v hid,
    lastValue_concat_of_ne ms v hparams, lastValue_concat_of_ne ms v hresult,
    lastValue_concat_of_ne ms v herror]

end concat

variable {buf : Bytes} {msg : MCPMessage}

theorem Slice.IsContent.reads {s : Slice} (h : s.IsContent buf) :
    (s.span buf.length).Reads buf (some s.text) := by
  obtain ⟨t, r, rfl, hsuffix, -⟩ := h
  exact ⟨Option.some_ne_none _, Slice.text_span (suffix_tail hsuffix)⟩

theorem Slice.IsValue.reads {v : Slice} (h : v.IsValue buf) :
    (v.span buf.length).Reads buf (some v.text) :=
  ⟨Option.some_ne_none _, Slice.text_span h.inside⟩

theorem MCPMessage.Shows.errorField {ms es : List (Bytes × Value)} {e : Bytes × Value}
    {f : ErrorField} (h : msg.Shows buf (.ofParts ms es)) (hf : f.Matches e)
    (hsound : f.Sound buf) : (f.apply buf.length msg).Shows buf (.ofParts ms (es ++ [e])) := by
  obtain ⟨key, v⟩ := e
  by_cases hcode : key = ascii "code"
  · subst hcode
    obtain ⟨n, rfl, hn⟩ := hf
    have hother : lastValue (es ++ [(ascii "code", v)]) (ascii "message") =
        lastValue es (ascii "message") := lastValue_concat_of_ne es v (by decide)
    refine { h with errorCode := ?_, errorMsg := ?_ }
    · show n = ((lastValue (es ++ [_]) _).bind Value.int?).getD 0
      rw [lastValue_concat_self, Option.bind_some, hn]
      rfl
    · show msg.errorMsg.Reads buf ((lastValue (es ++ [_]) _).bind Value.string?)
      rw [hother]
      exact h.errorMsg
  by_cases hmessage : key = ascii "message"
  · subst hmessage
    obtain ⟨s, rfl, hs⟩ := hf
    have hother : lastValue (es ++ [(ascii "message", v)]) (ascii "code") =
        lastValue es (ascii "code") := lastValue_concat_of_ne es v (by decide)
    refine { h with errorCode := ?_, errorMsg := ?_ }
    · show msg.errorCode = ((lastValue (es ++ [_]) _).bind Value.int?).getD 0
      rw [hother]
      exact h.errorCode
    · show (s.span buf.length).Reads buf ((lastValue (es ++ [_]) _).bind Value.string?)
      rw [lastValue_concat_self, Option.bind_some, hs]
      exact hsound.reads
  · rw [ErrorField.Matches, if_neg hcode, if_neg hmessage] at hf
    obtain ⟨u, rfl⟩ := hf
    refine { h with errorCode := ?_, errorMsg := ?_ }
    · show msg.errorCode = ((lastValue (es ++ [_]) _).bind Value.int?).getD 0
      rw [lastValue_concat_of_ne es v hcode]
      exact h.errorCode
    · show msg.errorMsg.Reads buf ((lastValue (es ++ [_]) _).bind Value.string?)
      rw [lastValue_concat_of_ne es v hmessage]
      exact h.errorMsg

/-- From one member to all of them, with the members read so far in front. -/
theorem shows_fill {μ : Type} {apply : μ → MCPMessage → MCPMessage}
    {Matches : Bytes × Value → μ → Prop} {view : List (Bytes × Value) → View}
    {ms : List (Bytes × Value)} {fields : List μ} (h : List.Forall₂ Matches ms fields) :
    ∀ {p : List (Bytes × Value)} {msg : MCPMessage}, msg.Shows buf (view p) →
      (∀ f ∈ fields, ∀ m p msg, Matches m f → msg.Shows buf (view p) →
        (apply f msg).Shows buf (view (p ++ [m]))) →
      (fill apply fields msg).Shows buf (view (p ++ ms)) := by
  induction h with
  | nil =>
      intro p msg hmsg _
      rwa [List.append_nil]
  | @cons m f ms fields hmf _ ih =>
      intro p msg hmsg hstep
      rw [List.forall_mem_cons] at hstep
      have := ih (hstep.1 m p msg hmf hmsg) hstep.2
      rwa [List.append_assoc] at this

theorem MCPMessage.Shows.topField {ms : List (Bytes × Value)} {m : Bytes × Value}
    {f : TopField} (h : msg.Shows buf (.of ms)) (hf : f.Matches m) (hsound : f.Sound buf) :
    (f.apply buf.length msg).Shows buf (.of (ms ++ [m])) := by
  obtain ⟨key, v⟩ := m
  by_cases hmethod : key = ascii "method"
  · subst hmethod
    obtain ⟨s, rfl, hs⟩ := hf
    rw [View.of_method, hs]
    exact { h with method := hsound.reads, isRequest := rfl }
  by_cases hid : key = ascii "id"
  · subst hid
    obtain ⟨n, rfl, hn⟩ := hf
    rw [View.of_id, hn]
    exact { h with id := rfl }
  by_cases hparams : key = ascii "params"
  · subst hparams
    obtain ⟨u, rfl, hu⟩ := hf
    rw [View.of_params, ← hu]
    exact { h with params := hsound.reads }
  by_cases hresult : key = ascii "result"
  · subst hresult
    obtain ⟨u, rfl, hu⟩ := hf
    rw [View.of_result, ← hu]
    exact { h with result := hsound.reads, isResponse := rfl, hasResult := rfl }
  by_cases herror : key = ascii "error"
  · subst herror
    obtain ⟨fields, u, rfl, hmatches⟩ := hf
    have hfill : (fill (ErrorField.apply buf.length) fields msg).Shows buf
        (.ofParts ms (errorMembers ms ++ v.members)) :=
      shows_fill hmatches h fun f hmem e es msg hfe hmsg => hmsg.errorField hfe (hsound.2 f hmem)
    rw [View.of_error]
    exact { hfill with isResponse := rfl, hasError := rfl }
  · rw [TopField.Matches, if_neg hmethod, if_neg hid, if_neg hparams, if_neg hresult,
      if_neg herror] at hf
    obtain ⟨u, rfl⟩ := hf
    rw [View.of_other ms v hmethod hid hparams hresult herror]
    exact h

theorem MCPMessage.blank_shows (buf : Bytes) : (MCPMessage.blank buf).Shows buf (.of []) where
  method := ⟨rfl, rfl⟩
  id := rfl
  params := ⟨rfl, rfl⟩
  result := ⟨rfl, rfl⟩
  errorCode := rfl
  errorMsg := ⟨rfl, rfl⟩
  isRequest := rfl
  isResponse := rfl
  hasResult := rfl
  hasError := rfl

/-- A JSON text whose value is an object with admissible members. -/
structure MessageText where
  before : Ws
  value : Value
  after : Ws
  isObject : value.isObject
  admissible : ∀ m ∈ value.members, Admissible m

def MessageText.text (q : MessageText) : Bytes := q.before.text ++ (q.value.text ++ q.after.text)

theorem MessageText.top (q : MessageText) : ∃ fields, Scan.top q.text = some (fields, q.after.text) ∧
    List.Forall₂ (fun m f => TopField.Matches m f) q.value.members fields :=
  object_scan topField_shrinks q.isObject (fun m hm => finds_topField (q.admissible m hm))
    q.before q.after.text

theorem MessageText.parse_shows (q : MessageText) {maxBytes : Nat} (hmax : q.text.length ≤ maxBytes) :
    ∃ msg, MCPMessage.parse (some q.text) maxBytes = .ok msg ∧ msg.valid = true ∧
      msg.Shows q.text (.of q.value.members) := by
  obtain ⟨fields, htop, hmatches⟩ := q.top
  have hparse := parse_refines hmax
  rw [htop] at hparse
  have hshows := shows_fill (p := []) hmatches (MCPMessage.blank_shows q.text)
    fun f hmem m pre msg hmf hmsg => hmsg.topField hmf (top_sound htop f hmem)
  exact ⟨_, hparse, rfl, { hshows with }⟩

/-! ## What the content depends on -/

/-- The members with the known keys are the same and in the same order, and so
are those of the error objects. -/
structure SameKnown (ms ms' : List (Bytes × Value)) : Prop where
  top : ∀ key ∈ [ascii "method", ascii "id", ascii "params", ascii "result"],
    ms.filter (·.1 = key) = ms'.filter (·.1 = key)
  error : (∃ m ∈ ms, m.1 = ascii "error") ↔ ∃ m ∈ ms', m.1 = ascii "error"
  inError : ∀ key ∈ [ascii "code", ascii "message"],
    (errorMembers ms).filter (·.1 = key) = (errorMembers ms').filter (·.1 = key)

theorem lastValue_eq (ms : List (Bytes × Value)) (key : Bytes) :
    lastValue ms key = (ms.filter (·.1 = key)).getLast?.map (·.2) := by
  rw [lastValue, List.getLast?_eq_head?_reverse, ← List.filter_reverse, List.head?_filter]

theorem lastValue_congr {ms ms' : List (Bytes × Value)} {key : Bytes}
    (h : ms.filter (·.1 = key) = ms'.filter (·.1 = key)) :
    lastValue ms key = lastValue ms' key := by
  rw [lastValue_eq, lastValue_eq, h]

theorem lastValue_isSome {ms : List (Bytes × Value)} {key : Bytes} :
    (lastValue ms key).isSome ↔ ∃ m ∈ ms, m.1 = key := by
  simp [lastValue]

theorem View.of_congr {ms ms' : List (Bytes × Value)} (h : SameKnown ms ms') :
    View.of ms = View.of ms' := by
  have herror : (lastValue ms (ascii "error")).isSome = (lastValue ms' (ascii "error")).isSome := by
    rw [Bool.eq_iff_iff, lastValue_isSome, lastValue_isSome]
    exact h.error
  have htop := fun key hkey => lastValue_congr (h.top key hkey)
  have hin := fun key hkey => lastValue_congr (h.inError key hkey)
  rw [View.of, View.of, View.ofParts, View.ofParts, herror, htop (ascii "method") (by simp),
    htop (ascii "id") (by simp), htop (ascii "params") (by simp), htop (ascii "result") (by simp),
    hin (ascii "code") (by simp), hin (ascii "message") (by simp)]

/-- The parser accepts every object of the grammar with admissible members, and
returns the content of its last known members.  White space, the order of the
members and unknown members do not matter. -/
theorem parse_complete (q : MessageText) {maxBytes : Nat} (hmax : q.text.length ≤ maxBytes) :
    ∃ msg, MCPMessage.parse (some q.text) maxBytes = .ok msg ∧ msg.valid = true ∧
      msg.Shows q.text (.of q.value.members) ∧
      ∀ (q' : MessageText) (maxBytes' : Nat), q'.text.length ≤ maxBytes' →
        SameKnown q.value.members q'.value.members →
        ∃ msg', MCPMessage.parse (some q'.text) maxBytes' = .ok msg' ∧ msg'.valid = true ∧
          msg'.Shows q'.text (.of q.value.members) := by
  obtain ⟨msg, hparse, hvalid, hshows⟩ := q.parse_shows hmax
  refine ⟨msg, hparse, hvalid, hshows, fun q' maxBytes' hmax' hsame => ?_⟩
  rw [View.of_congr hsame]
  exact q'.parse_shows hmax'

/-- The number with this one digit. -/
def Number.ofDigit (d : UInt8) (h : isdigit d = true) : Number where
  negative := false
  int := ⟨[d], List.cons_ne_nil _ _, List.forall_mem_singleton.mpr h⟩
  shape _ := rfl
  frac := none
  exp := none

/-- A member in front of others. -/
def Entries.withMember (key : Bytes) (h : key.all isStrChar) (v : Value) (es : Entries .object) :
    Entries .object :=
  .more .none (.key (.plain key h) .none .none) v .none es

theorem Entries.admissible_withMember {key : Bytes} {h : key.all isStrChar} {v : Value}
    {es : Entries .object} (hmember : Admissible (key, v)) (hes : ∀ m ∈ es.members, Admissible m) :
    ∀ m ∈ (es.withMember key h v).members, Admissible m := by
  rw [withMember, members, Label.name, Str.plain_text]
  exact List.forall_mem_cons.mpr ⟨hmember, hes⟩

theorem digit_one : isdigit 0x31 = true := by decide

theorem digit_two : isdigit 0x32 = true := by decide

theorem called_id : (ascii "id").all isStrChar := by decide

theorem called_params : (ascii "params").all isStrChar := by decide

theorem called_method : (ascii "method").all isStrChar := by decide

theorem called_name : (ascii "a").all isStrChar := by decide

theorem called_unknown : (ascii "x").all isStrChar := by decide

/-- The id that counts, behind all others. -/
def lastId : Entries .object :=
  .last .none (.key (.plain (ascii "id") called_id) .none .none)
    (.number (.ofDigit 0x32 digit_two)) .none

/-- Members in front of that, one of them an id. -/
def calledTwice : Entries .object :=
  lastId
    |>.withMember (ascii "params") called_params (.empty .object .none)
    |>.withMember (ascii "method") called_method (.string (.plain (ascii "a") called_name))
    |>.withMember (ascii "id") called_id (.number (.ofDigit 0x31 digit_one))

/-- The same known members in another order, and an unknown one. -/
def calledTwiceAgain : Entries .object :=
  lastId
    |>.withMember (ascii "method") called_method (.string (.plain (ascii "a") called_name))
    |>.withMember (ascii "id") called_id (.number (.ofDigit 0x31 digit_one))
    |>.withMember (ascii "x") called_unknown (.literal .null)
    |>.withMember (ascii "params") called_params (.empty .object .none)

theorem admissible_calledTwice : (∀ m ∈ calledTwice.members, Admissible m) ∧
    ∀ m ∈ calledTwiceAgain.members, Admissible m := by
  have hkeys : ascii "id" ≠ ascii "method" ∧ ascii "id" ≠ ascii "error" ∧
      ascii "method" ≠ ascii "error" := by
    decide
  have hid : ∀ {n : Number} {k : Int}, n.toInt? = some k → k.natAbs ≤ intMax →
      Admissible (ascii "id", .number n) := fun hn hmax =>
    ⟨Nat.zero_le _, fun h => absurd h hkeys.1, fun _ => ⟨_, hn, hmax⟩,
      fun h => absurd h hkeys.2.1⟩
  have hmethod : ∀ s : Str, Admissible (ascii "method", .string s) := fun s =>
    ⟨Nat.zero_le _, fun _ => ⟨s.text, rfl⟩, fun h => absurd h.symm hkeys.1,
      fun h => absurd h hkeys.2.2⟩
  have hother : ∀ {key : Bytes} {v : Value}, v.depth ≤ 1 → key ∈ [ascii "params", ascii "x"] →
      Admissible (key, v) := by
    intro key v hdepth hkey
    have hne : ∀ key ∈ [ascii "params", ascii "x"],
        key ≠ ascii "method" ∧ key ≠ ascii "id" ∧ key ≠ ascii "error" := by
      decide
    obtain ⟨hmethod, hid, herror⟩ := hne key hkey
    exact ⟨hdepth.trans (by decide), fun h => absurd h hmethod, fun h => absurd h hid,
      fun h => absurd h herror⟩
  have hparams : Admissible (ascii "params", .empty .object .none) :=
    hother (Nat.le_refl 1) (by decide)
  have hlast : ∀ m ∈ lastId.members, Admissible m := by
    rw [lastId, Entries.members, Label.name, Str.plain_text]
    exact List.forall_mem_singleton.mpr (hid rfl (by decide))
  constructor
  · exact Entries.admissible_withMember (hid rfl (by decide))
      (Entries.admissible_withMember (hmethod _) (Entries.admissible_withMember hparams hlast))
  · exact Entries.admissible_withMember hparams (Entries.admissible_withMember
      (hother (Nat.zero_le 1) (by decide)) (Entries.admissible_withMember (hid rfl (by decide))
        (Entries.admissible_withMember (hmethod _) hlast)))

theorem parse_complete_of_id :
    ∃ q q' : MessageText,
      q.text = ascii "\x7b\"id\":1,\"method\":\"a\",\"params\":\x7b\x7d,\"id\":2\x7d" ∧
      q'.text = ascii (" \x7b\"params\":\x7b\x7d,\"x\":null," ++
        "\"id\":1,\"method\":\"a\",\"id\":2\x7d") ∧
      ∃ msg msg', MCPMessage.parse (some q.text) 64 = .ok msg ∧
        MCPMessage.parse (some q'.text) 64 = .ok msg' ∧
        msg.Shows q.text (.of q.value.members) ∧ msg'.Shows q'.text (.of q.value.members) ∧
        msg.id = some 2 ∧ msg'.id = some 2 := by
  let q : MessageText := ⟨.none, .container .object calledTwice, .none, rfl,
    admissible_calledTwice.1⟩
  let q' : MessageText := ⟨⟨[space], List.forall_mem_singleton.mpr rfl⟩,
    .container .object calledTwiceAgain, .none, rfl, admissible_calledTwice.2⟩
  have hsame : SameKnown q.value.members q'.value.members := by
    constructor
    · simp only [List.forall_mem_cons]
      exact ⟨rfl, rfl, rfl, rfl, List.forall_mem_nil _⟩
    · decide
    · simp only [List.forall_mem_cons]
      exact ⟨rfl, rfl, List.forall_mem_nil _⟩
  have hmax : q.text.length ≤ 64 ∧ q'.text.length ≤ 64 := by decide +kernel
  obtain ⟨msg, hparse, -, hshows, hcomplete⟩ := parse_complete q hmax.1
  obtain ⟨msg', hparse', -, hshows'⟩ := hcomplete q' 64 hmax.2 hsame
  exact ⟨q, q', by decide +kernel, by decide +kernel, msg, msg', hparse, hparse', hshows, hshows',
    hshows.id, hshows'.id⟩

end McpToolkit
