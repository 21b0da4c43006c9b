import McpToolkit.Adapter.Provenance
import McpToolkit.Adapter.RoundTrip
/-!
# An adapter reads what an adapter writes

The id of a reply was read by the parser, its code is one of four and its result is not
nested deep, so that a reply within the limit is a message and not a request.  The one
exception is the reply to a line that does not parse: its id is `null`, and so it does
not parse either.
-/

namespace McpToolkit

open JsonParser

/-! ## Depth -/

section depth

variable {d : Nat}

theorem entriesOf_depth {k : Kind} {e : Label k × Value} {es : List (Label k × Value)}
    (h : ∀ e' ∈ e :: es, e'.2.depth ≤ d) : (entriesOf e es).depth ≤ d := by
  induction es generalizing e with
  | nil => exact h e List.mem_cons_self
  | cons e' es ih =>
      rw [List.forall_mem_cons] at h
      rw [entriesOf, Entries.depth]
      exact max_le h.1 (ih h.2)

theorem containerOf_depth {k : Kind} {es : List (Label k × Value)}
    (h : ∀ e ∈ es, e.2.depth ≤ d) : (containerOf k es).depth ≤ d + 1 := by
  cases es with
  | nil => exact Nat.succ_le_succ (Nat.zero_le d)
  | cons e es => exact Nat.succ_le_succ (entriesOf_depth h)

theorem objectOf_depth {ms : List (Key × Value)} (h : ∀ m ∈ ms, m.2.depth ≤ d) :
    (objectOf ms).depth ≤ d + 1 := by
  apply containerOf_depth
  rw [List.forall_mem_map]
  exact h

theorem arrayOf_depth {es : List Element} (h : ∀ e ∈ es, e.value.depth ≤ d) :
    (arrayOf es).depth ≤ d + 1 := by
  apply containerOf_depth
  rw [List.forall_mem_map]
  exact h

end depth

namespace MCPAdapter

theorem propertyFields_depth (ps : List ToolParam) (h : ∀ p ∈ ps, p.name.all isStrChar) :
    ∀ m ∈ (propertyFields ps h).members, m.2.depth ≤ 1 := by
  induction ps with
  | nil => exact List.forall_mem_nil _
  | cons p ps ih => exact List.forall_mem_cons.mpr ⟨Nat.le_refl 1, ih _⟩

theorem requiredElements_depth (ps : List ToolParam) :
    ∀ e ∈ requiredElements ps, e.value.depth ≤ 0 := by
  intro e he
  obtain ⟨p, -, rfl⟩ := List.mem_map.mp he
  exact Nat.le_refl 0

theorem toolFields_depth (t : ToolDefinition) (h : PlainNames t) :
    (toolFields t h).value.depth ≤ 4 := by
  have hproperties : (propertyFields t.params h).value.depth ≤ 2 :=
    objectOf_depth (propertyFields_depth t.params h)
  have hrequired : (arrayOf (requiredElements t.params)).depth ≤ 2 :=
    (arrayOf_depth (requiredElements_depth t.params)).trans (by decide)
  apply objectOf_depth
  rw [toolFields, Fields.members, Fields.members, Fields.members, List.forall_mem_cons,
    List.forall_mem_cons, List.forall_mem_cons]
  refine ⟨Nat.zero_le 3, Nat.zero_le 3, ?_, List.forall_mem_nil _⟩
  dsimp only
  apply objectOf_depth (d := 2)
  rw [Fields.members, Fields.members, Fields.members, List.forall_mem_cons, List.forall_mem_cons,
    List.forall_mem_cons]
  exact ⟨Nat.zero_le 2, hproperties, hrequired, List.forall_mem_nil _⟩

theorem toolElements_depth (ts : List ToolDefinition) (h : ∀ t ∈ ts, PlainNames t) :
    ∀ e ∈ toolElements ts h, e.value.depth ≤ 4 := by
  induction ts with
  | nil => exact List.forall_mem_nil _
  | cons t ts ih => exact List.forall_mem_cons.mpr ⟨toolFields_depth t _, ih _⟩

theorem toolsFields_depth (ts : List ToolDefinition) (h : ∀ t ∈ ts, PlainNames t) :
    (toolsFields ts h).value.depth ≤ 6 :=
  objectOf_depth (List.forall_mem_singleton.mpr (arrayOf_depth (toolElements_depth ts h)))

/-! ## What a reply to a request is -/

/-- The bodies of the replies to requests: an error whose code the parser can read, or a
result on one line within the depth limit. -/
inductive Answer : Fields → Prop where
  | error {code : Int} (message : Bytes) (hcode : code.natAbs ≤ intMax) :
      Answer (errorBody code message)
  | result {inner : Fields} (hline : inner.OneLine) (hdepth : inner.value.depth ≤ kMaxDepth) :
      Answer (resultBody inner)

/-- Everything that is written is a reply with this id. -/
def Sends (id : Option Int) (events : List Event) : Prop :=
  ∃ body, Answer body ∧ outputs events = [(replyFields id body).value.text ++ [newline]]

section sends

variable {id : Option Int} {events : List Event}

theorem Sends.cons (h : Sends id events) {e : Event} (he : outputs [e] = []) :
    Sends id (e :: events) := by
  obtain ⟨body, hbody, houtputs⟩ := h
  refine ⟨body, hbody, ?_⟩
  rw [outputs] at he houtputs
  rw [← List.singleton_append, outputs, List.filterMap_append, he, houtputs, List.nil_append]

theorem sends_output {body : Fields} (hbody : Answer body) :
    Sends id [.output ((replyFields id body).value.text ++ [newline])] :=
  ⟨body, hbody, rfl⟩

theorem sends_error (id : Option Int) {code : Int} (hcode : code.natAbs ≤ intMax)
    (message : Bytes) : Sends id [sendError id code message] := by
  rw [sendError_eq]
  exact sends_output (.error message hcode)

end sends

section outcomes

variable {σ : Type} {server : Server σ} {s s' : AdapterState σ} {buf : Bytes} {msg : MCPMessage}
variable {events : List Event}

theorem handleInitialize_sends (a : MCPAdapter) (msg : MCPMessage) :
    Sends msg.id (handleInitialize a msg) := by
  have hdepth : (initializeFields a).value.depth ≤ kMaxDepth := by
    show 3 ≤ kMaxDepth
    decide
  rw [handleInitialize_eq]
  exact (sends_output (.result (initializeFields_oneLine a) hdepth)).cons rfl

theorem handleToolsList_sends (hplain : ListsPlain server) :
    Sends msg.id (handleToolsList server s msg).2 := by
  unfold handleToolsList
  dsimp only
  split
  · exact ((sends_error _ (by decide) _).cons rfl).cons rfl
  · have hdepth := (toolsFields_depth (server.listTools s).1 (hplain s)).trans
      (show 6 ≤ kMaxDepth by decide)
    rw [toolsReply_eq msg.id _ (hplain s)]
    exact ((sends_output (.result (toolsFields_oneLine _ _) hdepth)).cons rfl).cons rfl

theorem answer_sends {user : Option User} (request : Except Bytes (Bytes × Bytes)) :
    Sends msg.id (answer server s msg user request).2 := by
  cases request with
  | error message => exact (sends_error _ (by decide) _).cons rfl
  | ok call =>
      have hdepth : (callFields (server.callTool s call.1 call.2 user).1).value.depth ≤
          kMaxDepth := by
        show 3 ≤ kMaxDepth
        decide
      have hreply : Sends msg.id [resultReply msg.id (server.callTool s call.1 call.2 user).1] := by
        rw [resultReply_eq]
        exact sends_output (.result (callFields_oneLine _) hdepth)
      exact (hreply.cons rfl).cons rfl

theorem handleToolsCall_sends {user : Option User}
    (h : handleToolsCall server s msg user = .ok (s', events)) : Sends msg.id events := by
  rw [handleToolsCall_eq] at h
  cases hrequest : toolRequest msg with
  | error fault =>
      rw [hrequest] at h
      cases h
  | ok request =>
      rw [hrequest] at h
      have hanswer : answer server s msg user request = (s', events) := Except.ok.inj h
      have hsends : Sends msg.id (answer server s msg user request).2 := answer_sends request
      rwa [hanswer] at hsends

theorem methods_sends (hplain : ListsPlain server) {user : Option User} (h : (do
      if ← methodIs msg (ascii "initialize") then return (s, handleInitialize s.adapter msg)
      if ← methodIs msg (ascii "tools/list") then return handleToolsList server s msg
      if ← methodIs msg (ascii "tools/call") then return ← handleToolsCall server s msg user
      return (s, [sendError msg.id (-32601) (ascii "Method not found")]) :
        Except Fault (AdapterState σ × List Event)) = .ok (s', events)) :
    Sends msg.id events := by
  obtain ⟨first, -, h⟩ := bind_eq_ok h
  cases first with
  | true =>
      cases h
      exact handleInitialize_sends s.adapter msg
  | false =>
      obtain ⟨list, -, h⟩ := bind_eq_ok h
      cases list with
      | true =>
          have hlist : handleToolsList server s msg = (s', events) := Except.ok.inj h
          have hsends : Sends msg.id (handleToolsList server s msg).2 :=
            handleToolsList_sends hplain
          rwa [hlist] at hsends
      | false =>
          obtain ⟨call, -, h⟩ := bind_eq_ok h
          cases call with
          | true => exact handleToolsCall_sends h
          | false =>
              cases h
              exact sends_error _ (by decide) _

theorem authorized_sends (hplain : ListsPlain server) {u : User}
    (h : authorized server s msg u = .ok (s', events)) : Sends msg.id events := by
  unfold authorized at h
  by_cases hrbac : (s.adapter.rbacEnabled && s.adapter.authEnabled) = true
  · rw [if_pos hrbac] at h
    obtain ⟨name, -, h⟩ := bind_eq_ok h
    by_cases hcheck : (!s.adapter.rbac.checkPermission u name) = true
    · rw [if_pos hcheck] at h
      cases h
      exact sends_error _ (by decide) _
    · rw [if_neg hcheck] at h
      exact methods_sends hplain h
  · rw [if_neg hrbac] at h
    exact methods_sends hplain h

theorem dispatch_sends (hplain : ListsPlain server) {hmac : Bytes → Bytes → Digest}
    {now later : Int} (hrequest : msg.isRequest = true) (hid : msg.id ≠ none)
    (h : dispatch server hmac now later s msg = .ok (s', events)) : Sends msg.id events := by
  unfold dispatch at h
  rw [hrequest, Bool.not_true, if_neg Bool.false_ne_true, if_neg hid] at h
  split_ifs at h
  · obtain ⟨token, -, h⟩ := bind_eq_ok h
    dsimp only at h
    split at h
    · cases h
      exact (sends_error _ (by decide) _).cons rfl
    · obtain ⟨served, hserved, h⟩ := bind_eq_ok h
      cases h
      exact (authorized_sends hplain hserved).cons rfl
  · exact authorized_sends hplain h

end outcomes

/-! ## How a reply is read -/

section read

variable {id : Int} {body : Fields}

theorem resultReply_members (id : Int) (inner : Fields) :
    (replyFields (some id) (resultBody inner)).value.members =
      [(ascii "jsonrpc", .string (escaped (ascii "2.0"))), (ascii "id", .number (.ofInt id)),
        (ascii "result", inner.value)] := by
  rw [Fields.value, objectOf_members]
  rfl

theorem Answer.admissible (hbody : Answer body) (hid : id.natAbs ≤ intMax) :
    ∀ m ∈ (replyFields (some id) body).value.members, Admissible m := by
  cases hbody with
  | error message hcode => exact errorReply_admissible hid hcode message
  | result hline hdepth =>
      rw [resultReply_members, List.forall_mem_cons, List.forall_mem_cons,
        List.forall_mem_singleton]
      refine ⟨.of_other (Nat.zero_le _) (by decide) (by decide) (by decide), ?_, ?_⟩
      · exact .of_id (Nat.zero_le _) ⟨id, Number.ofInt_toInt? id, hid⟩
      · exact .of_other hdepth (by decide) (by decide) (by decide)

theorem Answer.isRequest (hbody : Answer body) (id : Int) :
    (View.of (replyFields (some id) body).value.members).isRequest = false := by
  cases hbody with
  | @error code message hcode => rw [errorReply_view]
  | @result inner hline hdepth =>
      rw [resultReply_members]
      rfl

theorem Answer.printable (hbody : Answer body) (id : Option Int) :
    Printable (replyFields id body).value.text := by
  cases hbody with
  | error message hcode => exact (errorReply_isReply id _ message).oneLine
  | result hline hdepth => exact (resultReply_isReply id hline).oneLine

/-- The line of an answer. -/
def answerText (hbody : Answer body) (hid : id.natAbs ≤ intMax) : MessageText where
  before := .none
  value := (replyFields (some id) body).value
  after := .none
  isObject := Fields.value_isObject _
  admissible := hbody.admissible hid

theorem answerText_text (hbody : Answer body) (hid : id.natAbs ≤ intMax) :
    (answerText hbody hid).text = (replyFields (some id) body).value.text :=
  List.append_nil _

/-- Within the limit it is a message, and not a request. -/
theorem Answer.parse (hbody : Answer body) (hid : id.natAbs ≤ intMax) {maxBytes : Nat}
    (hmax : (replyFields (some id) body).value.text.length ≤ maxBytes) :
    ∃ msg, MCPMessage.parse (some (replyFields (some id) body).value.text) maxBytes = .ok msg ∧
      msg.valid = true ∧ msg.isRequest = false := by
  rw [← answerText_text hbody hid] at hmax ⊢
  obtain ⟨msg, hparse, hvalid, hshows⟩ := (answerText hbody hid).parse_shows hmax
  exact ⟨msg, hparse, hvalid, hshows.isRequest.trans (hbody.isRequest id)⟩

end read

/-- The reply to a line that does not parse. -/
def parseErrorLine : Bytes :=
  ascii "\x7b\"jsonrpc\":\"2.0\",\"id\":null," ++
    ascii "\"error\":\x7b\"code\":-32700,\"message\":\"Parse error\"\x7d\x7d"

theorem sendError_parse :
    sendError none (-32700) (ascii "Parse error") = .output (parseErrorLine ++ [newline]) := by
  decide +kernel

/-- What is written on a line. -/
inductive Reply : Bytes → Prop where
  | unparsed : Reply parseErrorLine
  | answer {id : Int} {body : Fields} (hid : id.natAbs ≤ intMax) (hbody : Answer body) :
      Reply (replyFields (some id) body).value.text

/-- A reply that does not parse. -/
def Loud (line : Bytes) : Prop := line = parseErrorLine ∨ kDefaultMaxBytes < line.length

instance (line : Bytes) : Decidable (Loud line) := inferInstanceAs (Decidable (_ ∨ _))

namespace Reply

variable {line : Bytes}

theorem printable (h : Reply line) : Printable line := by
  cases h with
  | unparsed =>
      unfold Printable
      decide +kernel
  | answer hid hbody => exact hbody.printable _

theorem newline_notMem (h : Reply line) : newline ∉ line :=
  fun hmem => absurd (h.printable newline hmem) (by decide)

theorem stripReturn (h : Reply line) : stripReturn line = line :=
  stripReturn_of_notMem fun hmem => absurd (h.printable 13 hmem) (by decide)

theorem ne_nil (h : Reply line) : line ≠ [] := by
  cases h with
  | unparsed => decide
  | answer hid hbody => exact Value.text_ne_nil _

theorem parse_loud (hloud : Loud line) :
    ∃ msg, MCPMessage.parse (some line) kDefaultMaxBytes = .ok msg ∧ msg.valid = false := by
  rcases hloud with rfl | hmax
  · have hvalid : (MCPMessage.parse (some parseErrorLine) kDefaultMaxBytes).map (·.valid) =
        .ok false := by
      decide +kernel
    obtain ⟨msg, hparse, -⟩ := parse_safe (some parseErrorLine) kDefaultMaxBytes
    rw [hparse] at hvalid
    exact ⟨msg, hparse, Except.ok.inj hvalid⟩
  · exact ⟨_, parse_oversize hmax, rfl⟩

theorem parse_quiet (h : Reply line) (hquiet : ¬ Loud line) :
    ∃ msg, MCPMessage.parse (some line) kDefaultMaxBytes = .ok msg ∧ msg.valid = true ∧
      msg.isRequest = false := by
  rw [Loud, not_or, Nat.not_lt] at hquiet
  cases h with
  | unparsed => exact absurd rfl hquiet.1
  | answer hid hbody => exact hbody.parse hid hquiet.2

/-- Any adapter passes over a reply, or answers that it does not parse. -/
theorem runLine {σ : Type} (h : Reply line) (server : Server σ) (hmac : Bytes → Bytes → Digest)
    (now later : Int) (s : AdapterState σ) : MCPAdapter.runLine server hmac ⟨line, now, later⟩ s =
      .ok (s, if Loud line then [.output (parseErrorLine ++ [newline])] else []) := by
  unfold MCPAdapter.runLine
  rw [if_neg (by simpa using h.ne_nil), h.stripReturn]
  by_cases hloud : Loud line
  · obtain ⟨msg, hparse, hinvalid⟩ := parse_loud hloud
    rw [hparse, ok_bind, hinvalid, if_pos hloud, sendError_parse]
    rfl
  · obtain ⟨msg, hparse, hvalid, hrequest⟩ := h.parse_quiet hloud
    rw [hparse, ok_bind, hvalid, if_neg hloud, Bool.not_true, if_neg Bool.false_ne_true]
    apply dispatch_ignores
    rw [hrequest]
    exact fun hdue => Bool.false_ne_true hdue.1

end Reply

/-! ## What is written in a run -/

section run

variable {σ : Type} {server : Server σ} {hmac : Bytes → Bytes → Digest}
variable {s s' : AdapterState σ} {events : List Event}

theorem Sends.reply {id : Int} (h : Sends (some id) events) (hid : id.natAbs ≤ intMax) :
    ∃ text, Reply text ∧ text ≠ parseErrorLine ∧ outputs events = [text ++ [newline]] := by
  obtain ⟨body, hbody, houtputs⟩ := h
  refine ⟨_, .answer hid hbody, fun heq => ?_, houtputs⟩
  have hmax : parseErrorLine.length ≤ kDefaultMaxBytes := by decide +kernel
  rw [← heq] at hmax
  obtain ⟨msg, hparse, hvalid, -⟩ := hbody.parse hid hmax
  obtain ⟨msg', hparse', hinvalid⟩ := Reply.parse_loud (.inl rfl)
  rw [heq, hparse'] at hparse
  rw [← Except.ok.inj hparse, hinvalid] at hvalid
  cases hvalid

/-- A request that is due an answer. -/
def asks (line : Bytes) : Bool :=
  match MCPMessage.parse (some (stripReturn line)) kDefaultMaxBytes with
  | .ok msg => !line.isEmpty && msg.valid && msg.isRequest && msg.id.isSome
  | .error _ => false

/-- A line leads to one reply that is not a parse error if it asks, and to nothing or a
parse error if it does not. -/
theorem runLine_sends (hplain : ListsPlain server) {i : Input}
    (h : runLine server hmac i s = .ok (s', events)) :
    (asks i.line = true ∧ ∃ text, Reply text ∧ text ≠ parseErrorLine ∧
        outputs events = [text ++ [newline]]) ∨
      (asks i.line = false ∧ s' = s ∧
        (events = [] ∨ events = [.output (parseErrorLine ++ [newline])])) := by
  unfold runLine at h
  unfold asks
  by_cases hempty : i.line.isEmpty = true
  · rw [if_pos hempty] at h
    cases h
    rw [hempty]
    refine .inr ⟨?_, rfl, .inl rfl⟩
    split <;> rfl
  rw [if_neg hempty] at h
  rw [Bool.not_eq_true] at hempty
  obtain ⟨msg, hparse, h⟩ := bind_eq_ok h
  rw [hparse, hempty]
  dsimp only
  cases hvalid : msg.valid with
  | false =>
      rw [hvalid, Bool.not_false, if_pos rfl, sendError_parse] at h
      cases h
      exact .inr ⟨rfl, rfl, .inr rfl⟩
  | true =>
      rw [hvalid, Bool.not_true, if_neg Bool.false_ne_true] at h
      by_cases hdue : msg.isRequest = true ∧ msg.id ≠ none
      · obtain ⟨id, hid⟩ := Option.ne_none_iff_exists'.mp hdue.2
        have hsends := dispatch_sends hplain hdue.1 hdue.2 h
        rw [hid] at hsends
        rw [hdue.1, hid]
        exact .inl ⟨rfl, hsends.reply ((parse_inRange hparse hvalid).id id hid)⟩
      · rw [dispatch_ignores server s hmac i.now i.later hdue] at h
        cases h
        refine .inr ⟨?_, rfl, .inl rfl⟩
        rw [← Option.isSome_iff_ne_none, ← Bool.and_eq_true, Bool.not_eq_true] at hdue
        rw [Bool.and_assoc, hdue, Bool.and_false]

theorem runLine_replies (hplain : ListsPlain server) {i : Input}
    (h : runLine server hmac i s = .ok (s', events)) :
    ∀ line ∈ outputs events, ∃ text, Reply text ∧ line = text ++ [newline] := by
  rcases runLine_sends hplain h with ⟨-, text, hreply, -, houtputs⟩ | ⟨-, -, rfl | rfl⟩
  · rw [houtputs, List.forall_mem_singleton]
    exact ⟨text, hreply, rfl⟩
  · exact List.forall_mem_nil _
  · exact List.forall_mem_singleton.mpr ⟨_, .unparsed, rfl⟩

theorem run_replies (hplain : ListsPlain server) {inputs : List Input}
    (h : run server hmac inputs s = .ok (s', events)) :
    ∀ line ∈ outputs events, ∃ text, Reply text ∧ line = text ++ [newline] := by
  induction inputs generalizing s events with
  | nil =>
      cases h
      exact List.forall_mem_nil _
  | cons i inputs ih =>
      obtain ⟨⟨s₁, first⟩, hfirst, h⟩ := bind_eq_ok h
      obtain ⟨⟨s₂, others⟩, hothers, h⟩ := bind_eq_ok h
      cases h
      rw [outputs, List.filterMap_append, List.forall_mem_append]
      exact ⟨runLine_replies hplain hfirst, ih hothers⟩

end run

/-- A server that lists its parameters under plain names writes this line in some run. -/
def PlainlyWritten (line : Bytes) : Prop :=
  ∃ (σ : Type) (server : Server σ) (hmac : Bytes → Bytes → Digest) (inputs : List Input)
    (s s' : AdapterState σ) (events : List Event), ListsPlain server ∧
      run server hmac inputs s = .ok (s', events) ∧ line ++ [newline] ∈ outputs events

theorem PlainlyWritten.reply {line : Bytes} (h : PlainlyWritten line) : Reply line := by
  obtain ⟨σ, server, hmac, inputs, s, s', events, hplain, hrun, hmem⟩ := h
  obtain ⟨text, hreply, heq⟩ := run_replies hplain hrun _ hmem
  rw [List.append_cancel_right heq]
  exact hreply

/-- A line that an adapter has written in any run, over a server that lists plain names of
parameters, leads no adapter over any server to do anything: in any state it reads the line,
calls nothing and stays as it is, and answers with a parse error if and only if the line is one
or is longer than the limit. -/
theorem written_read {line : Bytes} (h : PlainlyWritten line) {σ : Type} (server : Server σ)
    (hmac : Bytes → Bytes → Digest) (now later : Int) (s : AdapterState σ) :
    runLine server hmac ⟨line, now, later⟩ s =
      .ok (s, if Loud line then [.output (parseErrorLine ++ [newline])] else []) :=
  h.reply.runLine server hmac now later s

/-- The line of an answer to a request for something that there is not. -/
def unknownLine : Bytes :=
  ascii "\x7b\"jsonrpc\":\"2.0\",\"id\":3," ++
    ascii "\"error\":\x7b\"code\":-32601,\"message\":\"Method not found\"\x7d\x7d"

theorem written_unknownLine : PlainlyWritten unknownLine := by
  have hplain : ListsPlain (Server.base Unit) := fun s => List.forall_mem_nil _
  have hevents : (runLine (Server.base Unit) secretHmac
      ⟨ascii "\x7b\"id\":3,\"method\":\"ping\"\x7d", 0, 0⟩ { adapter := {}, server := () }).map
        (·.2) = .ok [.output (unknownLine ++ [newline])] := by
    decide +kernel
  obtain ⟨s', events, hline⟩ := runLine_returns (Server.base Unit) secretHmac
    ⟨ascii "\x7b\"id\":3,\"method\":\"ping\"\x7d", 0, 0⟩ { adapter := {}, server := () }
  rw [hline] at hevents
  cases Except.ok.inj hevents
  have hrun := run_singleton hline
  exact ⟨Unit, _, secretHmac, _, _, _, _, hplain, hrun, List.mem_singleton_self _⟩

theorem written_read_of_unknown :
    runLine searchServer secretHmac ⟨unknownLine, 0, 0⟩ { adapter := {}, server := () } =
      .ok ({ adapter := {}, server := () }, []) :=
  written_read written_unknownLine searchServer secretHmac 0 0 _

end MCPAdapter

end McpToolkit
