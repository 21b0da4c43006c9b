import McpToolkit.Adapter.Bearer
import McpToolkit.Adapter.Replies
/-!
# The main loop

Every line that is not empty and does not parse, and every request with an id,
is answered by one reply; every other line is passed over.
-/

namespace McpToolkit

namespace MCPAdapter

/-- The lines that are written. -/
def outputs (events : List Event) : List Bytes :=
  events.filterMap fun e =>
    match e with
    | .output line => some line
    | _ => none

/-- One line is written, a reply with this id. -/
def Replied (id : Option Int) (events : List Event) : Prop :=
  ∃ reply : Value, IsReply id reply ∧ outputs events = [reply.text ++ [newline]]

/-- What is to come of a line of the input. -/
inductive Answers (line : Bytes) : List Event → Prop where
  | empty : line = [] → Answers line []
  | unparsed {msg : MCPMessage} {reply : Value} : line ≠ [] →
      MCPMessage.parse (some (stripReturn line)) kDefaultMaxBytes = .ok msg → msg.valid = false →
      IsReply none reply → Answers line [.output (reply.text ++ [newline])]
  | request {msg : MCPMessage} {events : List Event} : line ≠ [] →
      MCPMessage.parse (some (stripReturn line)) kDefaultMaxBytes = .ok msg → msg.valid = true →
      msg.isRequest = true → msg.id ≠ none → Replied msg.id events → Answers line events
  | dropped {msg : MCPMessage} : line ≠ [] →
      MCPMessage.parse (some (stripReturn line)) kDefaultMaxBytes = .ok msg → msg.valid = true →
      ¬ (msg.isRequest = true ∧ msg.id ≠ none) → Answers line []

/-- All tools that the server ever lists have parameters with plain names. -/
def ListsPlain {σ : Type} (server : Server σ) : Prop :=
  ∀ s, ∀ t ∈ (server.listTools s).1, PlainNames t

section replied

variable {id : Option Int} {events : List Event}

theorem Replied.cons (h : Replied id events) {e : Event} (he : outputs [e] = []) :
    Replied id (e :: events) := by
  obtain ⟨reply, hreply, houtputs⟩ := h
  refine ⟨reply, hreply, ?_⟩
  rw [← List.singleton_append, outputs, List.filterMap_append]
  rw [outputs] at he houtputs
  rw [he, houtputs, List.nil_append]

theorem replied_output {reply : Value} (h : IsReply id reply) :
    Replied id [.output (reply.text ++ [newline])] :=
  ⟨reply, h, rfl⟩

theorem replied_sendError (id : Option Int) (code : Int) (message : Bytes) :
    Replied id [sendError id code message] := by
  rw [sendError_eq]
  exact replied_output (errorReply_isReply id code message)

end replied

section outcomes

variable {σ : Type} {server : Server σ} {s s' : AdapterState σ} {msg : MCPMessage}
variable {events : List Event}

theorem handleToolsList_replied (hplain : ListsPlain server) :
    Replied msg.id (handleToolsList server s msg).2 := by
  unfold handleToolsList
  dsimp only
  split
  · exact ((replied_sendError _ _ _).cons rfl).cons rfl
  · rw [toolsReply_eq msg.id _ (hplain s)]
    exact ((replied_output (resultReply_isReply msg.id (toolsFields_oneLine _ _))).cons rfl).cons rfl

theorem Handles.replied (hplain : ListsPlain server) {user : Option User}
    (h : Handles server s msg user s' events) : Replied msg.id events := by
  cases h with
  | initialized =>
      rw [handleInitialize_eq]
      exact (replied_output (resultReply_isReply msg.id (initializeFields_oneLine _))).cons rfl
  | toolsList => exact handleToolsList_replied hplain
  | callRefused code message => exact (replied_sendError _ _ _).cons rfl
  | called name args =>
      rw [resultReply_eq]
      exact ((replied_output (resultReply_isReply msg.id (callFields_oneLine _))).cons rfl).cons rfl

theorem Serves.replied (hplain : ListsPlain server) {u : User}
    (h : Serves server s msg u s' events) : Replied msg.id events := by
  cases h with
  | refused code message => exact replied_sendError _ _ _
  | handled _ hhandles => exact hhandles.replied hplain

theorem Dispatches.replied (hplain : ListsPlain server) {hmac : Bytes → Bytes → Digest}
    {now later : Int} (h : Dispatches server s msg hmac now later s' events) :
    Replied msg.id events := by
  cases h with
  | unguarded _ hserves => exact hserves.replied hplain
  | denied _ _ _ => exact (replied_sendError _ _ _).cons rfl
  | admitted _ _ _ hserves => exact (hserves.replied hplain).cons rfl

end outcomes

section run

variable {σ : Type} (server : Server σ) (hmac : Bytes → Bytes → Digest)

/-- What a line leads to: nothing if it is empty, a parse error, what becomes of the
request, or nothing for another message. -/
theorem runLine_cases (i : Input) (s : AdapterState σ) :
    (i.line = [] ∧ runLine server hmac i s = .ok (s, [])) ∨
    (i.line ≠ [] ∧ ∃ msg, MCPMessage.parse (some (stripReturn i.line)) kDefaultMaxBytes = .ok msg ∧
      ((msg.valid = false ∧
          runLine server hmac i s = .ok (s, [sendError none (-32700) (ascii "Parse error")])) ∨
        (msg.valid = true ∧ msg.isRequest = true ∧ msg.id ≠ none ∧
          ∃ s' events, runLine server hmac i s = .ok (s', events) ∧
            Dispatches server s msg hmac i.now i.later s' events) ∨
        (msg.valid = true ∧ ¬ (msg.isRequest = true ∧ msg.id ≠ none) ∧
          runLine server hmac i s = .ok (s, [])))) := by
  unfold runLine
  by_cases hempty : i.line = []
  · rw [hempty]
    exact .inl ⟨rfl, rfl⟩
  · obtain ⟨msg, hparse, -⟩ := parse_safe (some (stripReturn i.line)) kDefaultMaxBytes
    rw [if_neg (by simpa using hempty), hparse, ok_bind]
    refine .inr ⟨hempty, msg, rfl, ?_⟩
    cases hvalid : msg.valid with
    | false => exact .inl ⟨rfl, rfl⟩
    | true =>
        rw [Bool.not_true, if_neg Bool.false_ne_true]
        by_cases hdue : msg.isRequest = true ∧ msg.id ≠ none
        · obtain ⟨buf, -, -, hreadable⟩ := parse_readable hparse hvalid
          exact .inr (.inl ⟨rfl, hdue.1, hdue.2,
            dispatch_dispatches server s hmac i.now i.later hreadable hdue.1 hdue.2⟩)
        · exact .inr (.inr ⟨rfl, hdue, dispatch_ignores server s hmac i.now i.later hdue⟩)

theorem runLine_returns (i : Input) (s : AdapterState σ) :
    ∃ s' events, runLine server hmac i s = .ok (s', events) := by
  rcases runLine_cases server hmac i s with
    ⟨-, hrun⟩ | ⟨-, msg, -, ⟨-, hrun⟩ | ⟨-, -, -, s', events, hrun, -⟩ | ⟨-, -, hrun⟩⟩
  · exact ⟨_, _, hrun⟩
  · exact ⟨_, _, hrun⟩
  · exact ⟨_, _, hrun⟩
  · exact ⟨_, _, hrun⟩

theorem runLine_answers (hplain : ListsPlain server) (i : Input) (s : AdapterState σ) :
    ∃ s' events, runLine server hmac i s = .ok (s', events) ∧ Answers i.line events := by
  rcases runLine_cases server hmac i s with ⟨hempty, hrun⟩ | ⟨hempty, msg, hparse,
    ⟨hinvalid, hrun⟩ | ⟨hvalid, hrequest, hid, s', events, hrun, houtcome⟩ | ⟨hvalid, hdue, hrun⟩⟩
  · exact ⟨s, [], hrun, .empty hempty⟩
  · refine ⟨s, _, hrun, ?_⟩
    rw [sendError_eq]
    exact .unparsed hempty hparse hinvalid (errorReply_isReply none (-32700) _)
  · exact ⟨s', events, hrun,
      .request hempty hparse hvalid hrequest hid (houtcome.replied hplain)⟩
  · exact ⟨s, [], hrun, .dropped hempty hparse hvalid hdue⟩

/-- The events of a run are those of its lines, one after the other, and each line
gets the answer that it is due. -/
theorem run_answers (hplain : ListsPlain server) (inputs : List Input) (s : AdapterState σ) :
    ∃ s' groups, run server hmac inputs s = .ok (s', groups.flatten) ∧
      List.Forall₂ (fun i events => Answers i.line events) inputs groups := by
  induction inputs generalizing s with
  | nil => exact ⟨s, [], rfl, .nil⟩
  | cons i inputs ih =>
      obtain ⟨s₁, events, hline, hanswers⟩ := runLine_answers server hmac hplain i s
      obtain ⟨s', groups, hrun, hgroups⟩ := ih s₁
      refine ⟨s', events :: groups, ?_, .cons hanswers hgroups⟩
      rw [run, hline, ok_bind]
      dsimp only
      rw [hrun]
      rfl

end run

/-- A server with one tool that has one parameter. -/
def searchServer : Server Unit :=
  { Server.base Unit with
    listTools := fun s =>
      ([⟨ascii "search", [], [⟨ascii "query", ascii "string", ascii "what to find", true⟩]⟩], s)
    listTools_reaches := AdapterState.reaches_self }

/-- A request, a line that does not parse, and a notification. -/
def searchInputs : List Input :=
  [⟨ascii "\x7b\"id\":1,\"method\":\"tools/list\"\x7d\r", 0, 0⟩, ⟨ascii "]", 0, 0⟩,
    ⟨ascii "\x7b\"method\":\"notifications/initialized\"\x7d", 0, 0⟩]

theorem run_answers_of_search :
    ∃ s' groups, run searchServer secretHmac searchInputs { adapter := {}, server := () } =
        .ok (s', groups.flatten) ∧
      List.Forall₂ (fun i events => Answers i.line events) searchInputs groups := by
  refine run_answers searchServer secretHmac ?_ _ _
  intro s t ht p hp
  rw [List.mem_singleton.mp ht] at hp
  rw [List.mem_singleton.mp hp]
  decide

end MCPAdapter

end McpToolkit
