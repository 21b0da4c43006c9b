import McpToolkit.Adapter.Lines
import McpToolkit.Adapter.RoundTrip
/-!
# Raw results

`send_response` writes a result that is JSON already.  It comes back octet for octet, on
one line as long as it has no line breaks of its own.
-/

namespace McpToolkit

open JsonParser

/-- The message is a reply with this id and this result. -/
structure MCPMessage.IsResult (buf : Bytes) (msg : MCPMessage) (id : Int) (result : Bytes) :
    Prop where
  valid : msg.valid = true
  isResponse : msg.isResponse = true
  hasResult : msg.hasResult = true
  hasError : msg.hasError = false
  isRequest : msg.isRequest = false
  id : msg.id = some id
  result : msg.result.start ≠ none ∧ msg.result.text buf = .ok result

namespace MCPAdapter

def sendResponse (id : Option Int) (resultJson : Bytes) : Event :=
  let b := startReply id
  let b := b.addFieldRaw (ascii "result") resultJson
  send b.endObject

/-- The text is read as this result. -/
def ReadsAsResult (text : Bytes) (maxBytes : Nat) (id : Int) (result : Bytes) : Prop :=
  ∃ msg, MCPMessage.parse (some text) maxBytes = .ok msg ∧ msg.IsResult text id result

theorem result_isKey : (ascii "result").all isStrChar := by decide

def valueBody (v : Value) : Fields := .raw ⟨ascii "result", result_isKey⟩ v .nil

theorem sendResponse_eq (id : Option Int) (v : Value) : sendResponse id v.text =
    .output ((replyFields id (valueBody v)).value.text ++ [newline]) := by
  rw [← startReply_emit]
  rfl

theorem valueReply_members (id : Int) (v : Value) :
    (replyFields (some id) (valueBody v)).value.members =
      [(ascii "jsonrpc", .string (escaped (ascii "2.0"))), (ascii "id", .number (.ofInt id)),
        (ascii "result", v)] := by
  rw [Fields.value, objectOf_members]
  rfl

variable {id : Int} {v : Value}

theorem valueReply_admissible (hid : id.natAbs ≤ intMax) (hdepth : v.depth ≤ kMaxDepth) :
    ∀ m ∈ (replyFields (some id) (valueBody v)).value.members, Admissible m := by
  rw [valueReply_members, List.forall_mem_cons, List.forall_mem_cons, List.forall_mem_singleton]
  refine ⟨.of_other (Nat.zero_le _) (by decide) (by decide) (by decide), ?_, ?_⟩
  · exact .of_id (Nat.zero_le _) ⟨id, Number.ofInt_toInt? id, hid⟩
  · exact .of_other hdepth (by decide) (by decide) (by decide)

/-- The line of a raw result, with this white space behind it. -/
def resultText (hid : id.natAbs ≤ intMax) (hdepth : v.depth ≤ kMaxDepth) (after : Ws) :
    MessageText where
  before := .none
  value := (replyFields (some id) (valueBody v)).value
  after := after
  isObject := Fields.value_isObject _
  admissible := valueReply_admissible hid hdepth

theorem valueReply_view (id : Int) (v : Value) :
    View.of (replyFields (some id) (valueBody v)).value.members =
      { method := none, id := some id, params := none, result := some v.text, errorCode := 0,
        errorMsg := none, isRequest := false, isResponse := true, hasResult := true,
        hasError := false } := by
  rw [valueReply_members, ← Number.ofInt_toInt? id]
  rfl

/-- In front of the result and behind it there are no line breaks. -/
theorem newline_mem_valueReply : newline ∈ (replyFields (some id) (valueBody v)).value.text ↔
    newline ∈ v.text := by
  have hversion : newline ∉ (Value.string (escaped (ascii "2.0"))).text := by decide +kernel
  have hid : newline ∉ (Value.number (.ofInt id)).text :=
    fun hmem => absurd (Number.printable _ newline hmem) (by decide)
  have hkeys : newline ∉ keyText (ascii "jsonrpc") ∧ newline ∉ keyText (ascii "id") ∧
      newline ∉ keyText (ascii "result") := by
    decide +kernel
  have hmarks : newline ≠ lbrace ∧ newline ≠ comma ∧ newline ≠ rbrace := by decide
  have htext : (replyFields (some id) (valueBody v)).value.text =
      lbrace :: (keyText (ascii "jsonrpc") ++ (Value.string (escaped (ascii "2.0"))).text ++
        comma :: (keyText (ascii "id") ++ (Value.number (.ofInt id)).text ++
          comma :: (keyText (ascii "result") ++ v.text))) ++ [rbrace] := by
    rw [Fields.value, objectOf_text]
    simp [objectText, commaJoin, replyFields, valueBody, Fields.members, memberText,
      Key.label_text, List.intercalate]
  rw [htext]
  simp [hversion, hid, hkeys, hmarks]

/-- What `send_response` writes is one line exactly if the result has no line break, and it
is read back as the result that was sent, with the newline or without it, unless the id is
the least `int`. -/
theorem sendResponse_reads_iff {id : Int} (hid : -2 ^ 31 ≤ id ∧ id < 2 ^ 31) {v : Value}
    (hdepth : v.depth ≤ kMaxDepth) :
    ∃ line, sendResponse (some id) v.text = .output (line ++ [newline]) ∧
      (getlines (line ++ [newline]) = [line] ↔ newline ∉ v.text) ∧
      ∀ text ∈ [line, line ++ [newline]], ∀ maxBytes, text.length ≤ maxBytes →
        (ReadsAsResult text maxBytes id v.text ↔ id ≠ -2 ^ 31) := by
  refine ⟨_, sendResponse_eq (some id) v, ?_, fun text htext maxBytes hmax => ?_⟩
  · rw [← newline_mem_valueReply, ← List.forall_mem_singleton (p := fun text => newline ∉ text),
      ← getlines_terminated_iff, terminated, List.flatMap_singleton]
  constructor
  · rintro ⟨msg, hparse, hresult⟩
    have hrange := (parse_inRange hparse hresult.valid).id id hresult.id
    simp only [intMax] at hrange
    omega
  · intro hne
    have hrange : id.natAbs ≤ intMax := by
      rw [intMax]
      omega
    obtain ⟨after, rfl⟩ : ∃ after : Ws, text = (resultText hrange hdepth after).text := by
      rcases List.mem_cons.mp htext with rfl | htext
      · exact ⟨.none, (List.append_nil _).symm⟩
      · exact ⟨⟨[newline], List.forall_mem_singleton.mpr rfl⟩, List.mem_singleton.mp htext⟩
    obtain ⟨msg, hparse, hvalid, hshows⟩ := (resultText hrange hdepth after).parse_shows hmax
    have hview : View.of (resultText hrange hdepth after).value.members = _ :=
      valueReply_view id v
    rw [hview] at hshows
    exact ⟨msg, hparse, hvalid, hshows.isResponse, hshows.hasResult, hshows.hasError,
      hshows.isRequest, hshows.id, hshows.result⟩

theorem plain_nested : (ascii "a").all isStrChar := by decide

/-- An array in an object. -/
def nestedResult : Value :=
  .container .object (.last .none (.key (.plain (ascii "a") plain_nested) .none .none)
    (.container .array (.more .none .element (.literal .true) .none
      (.last .none .element (.empty .object .none) .none))) .none)

theorem sendResponse_reads_iff_of_nested :
    nestedResult.text = ascii "\x7b\"a\":[true,\x7b\x7d]\x7d" ∧
    ∃ line, sendResponse (some 7) nestedResult.text = .output (line ++ [newline]) ∧
      getlines (line ++ [newline]) = [line] ∧
      ∀ text ∈ [line, line ++ [newline]], ∀ maxBytes, text.length ≤ maxBytes →
        ReadsAsResult text maxBytes 7 nestedResult.text := by
  have hdepth : nestedResult.depth ≤ kMaxDepth := by decide
  have hrange : -2 ^ 31 ≤ (7 : Int) ∧ (7 : Int) < 2 ^ 31 := by decide
  obtain ⟨line, hline, hlines, hreads⟩ := sendResponse_reads_iff hrange hdepth
  refine ⟨by decide +kernel, line, hline, hlines.mpr (by decide +kernel), ?_⟩
  intro text htext maxBytes hmax
  exact (hreads text htext maxBytes hmax).mpr (by decide)

end MCPAdapter

end McpToolkit
