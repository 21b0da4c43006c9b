import McpToolkit.Adapter.Replies
import McpToolkit.Json.Decode
import McpToolkit.Json.View
/-!
# Errors come back

An error that the adapter writes is a message that the parser reads.  The id, the
code and the text come back as they were sent, but for the least `int`: the digits
of a number are compared with `INT_MAX` before its sign is applied.
-/

namespace McpToolkit

open JsonParser Scan

/-! ## What the parser can return -/

/-- The numbers of a message are at most `INT_MAX` in magnitude. -/
structure MCPMessage.InRange (msg : MCPMessage) : Prop where
  id : ∀ n ∈ msg.id, n.natAbs ≤ intMax
  errorCode : msg.errorCode.natAbs ≤ intMax

variable {buf : Bytes} {msg : MCPMessage}

theorem MCPMessage.blank_inRange (buf : Bytes) : (MCPMessage.blank buf).InRange where
  id n hn := absurd hn (Option.not_mem_none n)
  errorCode := Nat.zero_le _

theorem ErrorField.apply_inRange {f : ErrorField} (hf : f.Sound buf) (h : msg.InRange) :
    (f.apply buf.length msg).InRange := by
  cases f with
  | code n => exact { h with errorCode := hf }
  | message s => exact { h with }
  | other v => exact h

theorem TopField.apply_inRange {f : TopField} (hf : f.Sound buf) (h : msg.InRange) :
    (f.apply buf.length msg).InRange := by
  cases f with
  | method s => exact { h with }
  | id n =>
      refine { h with id := ?_ }
      rintro m ⟨⟩
      exact hf
  | params v => exact { h with }
  | result v => exact { h with }
  | error fields v =>
      have hfill : (fill (ErrorField.apply buf.length) fields msg).InRange :=
        fill_induction h fun f hmem msg h => ErrorField.apply_inRange (hf.2 f hmem) h
      exact { hfill with }
  | other v => exact h

theorem parse_inRange {json : Option Bytes} {maxBytes : Nat}
    (h : MCPMessage.parse json maxBytes = .ok msg) (hvalid : msg.valid) : msg.InRange := by
  obtain ⟨s, fields, r, -, -, ht, rfl⟩ := parse_valid h hvalid
  have hfill := fill_induction (MCPMessage.blank_inRange s) fun f hmem msg h =>
    TopField.apply_inRange (top_sound ht f hmem) h
  exact { hfill with }

/-! ## What the adapter writes -/

section admissible

variable {key : Bytes} {v : Value} (hdepth : v.depth ≤ kMaxDepth)
include hdepth

theorem Admissible.of_other (hmethod : key ≠ ascii "method") (hid : key ≠ ascii "id")
    (herror : key ≠ ascii "error") : Admissible (key, v) :=
  ⟨hdepth, fun h => absurd h hmethod, fun h => absurd h hid, fun h => absurd h herror⟩

theorem Admissible.of_id (hint : ∃ n, v.int? = some n ∧ n.natAbs ≤ intMax) :
    Admissible (ascii "id", v) := by
  have hmethod : ascii "id" ≠ ascii "method" := by decide
  have herror : ascii "id" ≠ ascii "error" := by decide
  exact ⟨hdepth, fun h => absurd h hmethod, fun _ => hint, fun h => absurd h herror⟩

theorem Admissible.of_error (hobject : v.isObject) (hmembers : ∀ e ∈ v.members, ErrorAdmissible e) :
    Admissible (ascii "error", v) := by
  have hmethod : ascii "error" ≠ ascii "method" := by decide
  have hid : ascii "error" ≠ ascii "id" := by decide
  exact ⟨hdepth, fun h => absurd h hmethod, fun h => absurd h hid,
    fun _ => ⟨hobject, hmembers⟩⟩

end admissible

/-- The message is an error reply with this id, this code and this text. -/
structure MCPMessage.IsError (buf : Bytes) (msg : MCPMessage) (id code : Int) (message : Bytes) :
    Prop where
  valid : msg.valid = true
  isResponse : msg.isResponse = true
  hasError : msg.hasError = true
  isRequest : msg.isRequest = false
  id : msg.id = some id
  errorCode : msg.errorCode = code
  errorMsg : ∃ s : Str, msg.errorMsg.text buf = .ok s.text ∧ s.unescape = message

namespace MCPAdapter

/-- The text is read as this error. -/
def ReadsAsError (text : Bytes) (maxBytes : Nat) (id code : Int) (message : Bytes) : Prop :=
  ∃ msg, MCPMessage.parse (some text) maxBytes = .ok msg ∧ msg.IsError text id code message

theorem plain_code : (ascii "code").all isStrChar := by decide

theorem plain_message : (ascii "message").all isStrChar := by decide

/-- The error object of a reply. -/
def errorValue (code : Int) (message : Bytes) : Value :=
  objectOf [(⟨ascii "code", plain_code⟩, .number (.ofInt code)),
    (⟨ascii "message", plain_message⟩, .string (escaped message))]

theorem errorValue_members (code : Int) (message : Bytes) : (errorValue code message).members =
    [(ascii "code", .number (.ofInt code)), (ascii "message", .string (escaped message))] := by
  rw [errorValue, objectOf_members]
  rfl

theorem errorReply_members (id code : Int) (message : Bytes) :
    (replyFields (some id) (errorBody code message)).value.members =
      [(ascii "jsonrpc", .string (escaped (ascii "2.0"))), (ascii "id", .number (.ofInt id)),
        (ascii "error", errorValue code message)] := by
  rw [Fields.value, objectOf_members]
  rfl

variable {id code : Int}

theorem errorValue_admissible (hcode : code.natAbs ≤ intMax) (message : Bytes) :
    ∀ e ∈ (errorValue code message).members, ErrorAdmissible e := by
  have hkeys : ascii "code" ≠ ascii "message" := by decide
  rw [errorValue_members, List.forall_mem_cons, List.forall_mem_singleton]
  constructor
  · exact ⟨fun _ => ⟨code, Number.ofInt_toInt? code, hcode⟩, fun h => absurd h hkeys⟩
  · exact ⟨fun h => absurd h hkeys.symm, fun _ => ⟨_, rfl⟩⟩

theorem errorReply_admissible (hid : id.natAbs ≤ intMax) (hcode : code.natAbs ≤ intMax)
    (message : Bytes) :
    ∀ m ∈ (replyFields (some id) (errorBody code message)).value.members, Admissible m := by
  have hdepth : (errorValue code message).depth ≤ kMaxDepth := by
    show 1 ≤ kMaxDepth
    decide
  rw [errorReply_members, List.forall_mem_cons, List.forall_mem_cons, List.forall_mem_singleton]
  refine ⟨.of_other (Nat.zero_le _) (by decide) (by decide) (by decide), ?_, ?_⟩
  · exact .of_id (Nat.zero_le _) ⟨id, Number.ofInt_toInt? id, hid⟩
  · exact .of_error hdepth rfl (errorValue_admissible hcode message)

/-- The line of an error, with this white space behind it. -/
def errorText (hid : id.natAbs ≤ intMax) (hcode : code.natAbs ≤ intMax) (message : Bytes)
    (after : Ws) : MessageText where
  before := .none
  value := (replyFields (some id) (errorBody code message)).value
  after := after
  isObject := Fields.value_isObject _
  admissible := errorReply_admissible hid hcode message

theorem errorReply_view (id code : Int) (message : Bytes) :
    View.of (replyFields (some id) (errorBody code message)).value.members =
      { method := none, id := some id, params := none, result := none, errorCode := code,
        errorMsg := some (escaped message).text, isRequest := false, isResponse := true,
        hasResult := false, hasError := true } := by
  have herrors : errorMembers [(ascii "jsonrpc", Value.string (escaped (ascii "2.0"))),
      (ascii "id", .number (.ofInt id)), (ascii "error", errorValue code message)] =
      (errorValue code message).members := List.append_nil _
  have hcode : ((Number.ofInt code).toInt?).getD 0 = code := by
    rw [Number.ofInt_toInt?]
    rfl
  rw [errorReply_members, View.of, herrors, errorValue_members, ← Number.ofInt_toInt? id]
  conv => rhs; rw [← hcode]
  rfl

/-- What `send_error` writes is read back as the error that was sent, with the newline or
without it, unless the id or the code is the least `int`. -/
theorem sendError_reads_iff {id code : Int} (hid : -2 ^ 31 ≤ id ∧ id < 2 ^ 31)
    (hcode : -2 ^ 31 ≤ code ∧ code < 2 ^ 31) {message : Bytes} (hmessage : 0 ∉ message) :
    ∃ line, sendError (some id) code message = .output (line ++ [newline]) ∧
      ∀ text ∈ [line, line ++ [newline]], ∀ maxBytes, text.length ≤ maxBytes →
        (ReadsAsError text maxBytes id code message ↔ id ≠ -2 ^ 31 ∧ code ≠ -2 ^ 31) := by
  refine ⟨_, sendError_eq (some id) code message, fun text htext maxBytes hmax => ?_⟩
  constructor
  · rintro ⟨msg, hparse, herror⟩
    have hrange := parse_inRange hparse herror.valid
    have hidRange := hrange.id id herror.id
    have hcodeRange := hrange.errorCode
    rw [herror.errorCode] at hcodeRange
    simp only [intMax] at hidRange hcodeRange
    omega
  · rintro ⟨hidNe, hcodeNe⟩
    have hidRange : id.natAbs ≤ intMax := by
      rw [intMax]
      omega
    have hcodeRange : code.natAbs ≤ intMax := by
      rw [intMax]
      omega
    obtain ⟨after, rfl⟩ : ∃ after : Ws,
        text = (errorText hidRange hcodeRange message after).text := by
      rcases List.mem_cons.mp htext with rfl | htext
      · exact ⟨.none, (List.append_nil _).symm⟩
      · exact ⟨⟨[newline], List.forall_mem_singleton.mpr rfl⟩, List.mem_singleton.mp htext⟩
    obtain ⟨msg, hparse, hvalid, hshows⟩ :=
      (errorText hidRange hcodeRange message after).parse_shows hmax
    have hview : View.of (errorText hidRange hcodeRange message after).value.members = _ :=
      errorReply_view id code message
    rw [hview] at hshows
    refine ⟨msg, hparse, hvalid, hshows.isResponse, hshows.hasError, hshows.isRequest, hshows.id,
      hshows.errorCode, escaped message, hshows.errorMsg.2, ?_⟩
    rw [escaped_unescape, cString_of_not_mem hmessage]

theorem sendError_reads_iff_of_seven :
    ∃ line, sendError (some 7) (-32603) (ascii "Unauthorized") = .output (line ++ [newline]) ∧
      ∀ text ∈ [line, line ++ [newline]], ∀ maxBytes, text.length ≤ maxBytes →
        (ReadsAsError text maxBytes 7 (-32603) (ascii "Unauthorized") ↔
          (7 : Int) ≠ -2 ^ 31 ∧ (-32603 : Int) ≠ -2 ^ 31) :=
  sendError_reads_iff (by decide) (by decide) (by decide)

/-- An error for the request with the least `int` as its id. -/
def leastIdLine : Bytes :=
  ascii "\x7b\"jsonrpc\":\"2.0\",\"id\":-2147483648," ++
    ascii "\"error\":\x7b\"code\":-32603,\"message\":\"Unauthorized\"\x7d\x7d"

/-- The least `int` as an id: the reply is no valid message. -/
theorem sendError_least_id :
    ∃ line, sendError (some (-2147483648)) (-32603) (ascii "Unauthorized") =
        .output (line ++ [newline]) ∧
      ¬ ReadsAsError line line.length (-2147483648) (-32603) (ascii "Unauthorized") := by
  have hvalid : (MCPMessage.parse (some leastIdLine) leastIdLine.length).map (·.valid) =
      .ok false := by
    decide +kernel
  refine ⟨leastIdLine, by decide +kernel, ?_⟩
  rintro ⟨msg, hparse, herror⟩
  rw [hparse] at hvalid
  have hfalse : msg.valid = false := Except.ok.inj hvalid
  rw [herror.valid] at hfalse
  cases hfalse

end MCPAdapter

end McpToolkit
