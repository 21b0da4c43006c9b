import McpToolkit.Adapter.Arguments
import McpToolkit.Adapter.Messages
import McpToolkit.Adapter.Requests
import McpToolkit.Json.Accepted
import McpToolkit.Json.Layout
/-!
# What a value asks for

What `handle_tools_call` reads in params that are a value of the grammar, on the tree
of the value; and in any accepted text, whose params are one.
-/

namespace McpToolkit

open Scan Search MCPAdapter InputValidationHandler

/-- The white space behind a scalar that `extract_value_span` takes along. -/
def Placed.trailing (m : Placed) : Bytes :=
  if m.value.isScalar then m.rest.takeWhile isBlank else []

namespace Value

/-- The name of the tool, as it is written. -/
def toolName (v : Value) : Option Bytes :=
  ((v.allPlaced []).find? fun m => StringMember (ascii "name") m).bind (·.value.string?)

/-- The member whose value is passed as the arguments. -/
def argumentsMember (v : Value) : Option Placed :=
  ((v.tokens []).find? fun t => Hit (ascii "arguments") t.text).bind Token.member?

/-- The arguments, as they are written. -/
def argumentsText (v : Value) : Bytes :=
  (v.argumentsMember.map fun m => m.value.text ++ m.trailing).getD [lbrace, rbrace]

/-- The white space in the arguments. -/
def argumentsBlanks (v : Value) : Bytes :=
  (v.argumentsMember.map fun m => m.value.blanks ++ m.trailing).getD []

/-- The strings in the arguments. -/
def argumentsStrs (v : Value) : List Str :=
  (v.argumentsMember.map fun m => m.value.strs).getD []

/-- What the arguments stand for. -/
def argumentsJson (v : Value) : Json :=
  (v.argumentsMember.map fun m => m.value.json).getD (.object [])

/-- What params that are this value ask for. -/
def request (v : Value) : Except Bytes (Bytes × Bytes) :=
  match v.toolName with
  | none => .error (ascii "Missing tool name")
  | some name =>
      if name = [] then .error (ascii "Missing tool name")
      else if containsShellMetacharacters v.argumentsText ||
          containsEncodedMetacharacters v.argumentsText then
        .error (ascii "Arguments contain invalid characters (potential injection)")
      else .ok (name, v.argumentsText)

theorem atQuotes_text {α : Type} {key : Bytes} (hkey : Identifier key) (g : Bytes → Option α)
    (v : Value) : Search.atQuotes (fun t => (keyed key t).bind g) v.text =
      (v.tokens []).findSome? (Token.found key g) := by
  have hsearch := v.atQuotes hkey g [] rfl
  rw [List.append_nil, atQuotes_nil, Option.or_none] at hsearch
  exact hsearch

theorem fit (v : Value) : ∀ t ∈ v.tokens [], t.Fits := v.tokens_fit [] rfl

theorem stringOf_name (v : Value) : stringOf (ascii "name") v.text =
    ((v.allPlaced []).find? fun m => StringMember (ascii "name") m).bind Placed.content :=
  stringOf_tokens v.fit (v.atQuotes_text ⟨by decide, by decide⟩ opened)

theorem valueOf_arguments (v : Value) : valueOf (ascii "arguments") v.text =
    v.argumentsMember.map fun m => ⟨m.start, m.leaves⟩ := by
  rw [valueOf_tokens v.fit (v.atQuotes_text ⟨by decide, by decide⟩ some), argumentsMember]
  cases (v.tokens []).find? fun t => Hit (ascii "arguments") t.text with
  | none => rfl
  | some t => cases t <;> rfl

end Value

theorem Placed.trailing_leaves (m : Placed) : m.trailing ++ m.leaves = m.rest := by
  rw [Placed.trailing, Placed.leaves]
  split_ifs
  · exact List.takeWhile_append_dropWhile
  · rfl

theorem Placed.delimited_text (m : Placed) :
    Slice.text ⟨m.start, m.leaves⟩ = m.value.text ++ m.trailing := by
  rw [Placed.start, ← m.trailing_leaves, ← List.append_assoc, Slice.text_append]

theorem Placed.trailing_blank (m : Placed) : ∀ b ∈ m.trailing, isBlank b := by
  intro b hb
  rw [Placed.trailing] at hb
  split_ifs at hb
  · exact List.mem_takeWhile_imp hb
  · cases hb

theorem extractString_name (v : Value) :
    match v.toolName with
    | none => extractString v.text (ascii "name") = .ok (false, {})
    | some name => ∃ span, extractString v.text (ascii "name") = .ok (true, span) ∧
        span.text v.text = .ok name := by
  have hstring := v.stringOf_name
  have hrun := extractString_eq v.text (ascii "name")
  rw [hstring] at hrun
  rw [Value.toolName]
  cases hfind : (v.allPlaced []).find? fun m => StringMember (ascii "name") m with
  | none =>
      rw [hfind] at hrun
      exact hrun
  | some m =>
      rw [hfind, Option.bind_some] at hrun hstring
      have hm := List.find?_some hfind
      rw [decide_eq_true_eq] at hm
      obtain ⟨s, hs⟩ := Option.isSome_iff_exists.mp hm.2
      have hcontent : m.content = some ⟨s ++ quote :: m.rest, quote :: m.rest⟩ := by
        rw [Placed.content, hs]
        rfl
      rw [hcontent] at hrun hstring
      rw [Option.bind_some, hs]
      have htext := Slice.text_span (stringOf_suffix hstring)
      rw [Slice.text_append] at htext
      exact ⟨_, hrun, htext⟩

theorem argsJson_text {v : Value} (h : NoDangling v.text) :
    argsJson v.text = .ok v.argumentsText := by
  have hvalue := v.valueOf_arguments
  unfold argsJson
  rw [extractValueSpan_eq h, ok_bind, hvalue, Value.argumentsText]
  cases hmember : v.argumentsMember with
  | none => rfl
  | some m =>
      rw [hmember] at hvalue
      have htext := Slice.text_span (valueOf_suffix hvalue)
      rw [m.delimited_text] at htext
      exact htext

section

variable {buf : Bytes} {msg : MCPMessage}

theorem toolRequest_null (h : msg.params.IsNull) :
    toolRequest msg = .ok (.error (ascii "Invalid params")) := by
  unfold toolRequest
  rw [h.1]
  rfl

theorem toolRequest_value (hreadable : msg.Readable buf) {v : Value}
    (hreads : msg.params.Reads buf (some v.text)) (hmax : v.text.length ≤ maxParamsSize) :
    toolRequest msg = .ok v.request := by
  obtain ⟨hstart, htext⟩ := hreads
  have hjson : spanText msg msg.params = .ok v.text := by
    rw [spanText, hreadable.rawInput]
    exact htext
  have hdangling : NoDangling v.text := by
    obtain ⟨t, ht, hdangling⟩ := hreadable.params
    rw [htext] at ht
    cases ht
    exact hdangling
  have hlen : v.text.length = msg.params.len := Span.length_text htext
  have hpos := List.length_pos_of_ne_nil v.text_ne_nil
  have hpresent : ¬ (decide (msg.params.start = none) || decide (msg.params.len = 0)) = true := by
    rw [Bool.or_eq_true, decide_eq_true_eq, decide_eq_true_eq, not_or]
    exact ⟨hstart, by omega⟩
  have hname := extractString_name v
  unfold toolRequest
  rw [if_neg hpresent, if_neg (by omega), hjson, ok_bind, argsJson_text hdangling, Value.request]
  cases hfound : v.toolName with
  | none =>
      rw [hfound] at hname
      rw [hname]
      rfl
  | some name =>
      rw [hfound] at hname
      obtain ⟨span, hspan, hread⟩ := hname
      have hzero : span.len = 0 ↔ name = [] := by
        rw [← Span.length_text hread, List.length_eq_zero_iff]
      rw [hspan, ok_bind]
      dsimp only
      by_cases hempty : name = []
      · rw [if_pos (by simp [hzero.mpr hempty]), if_pos hempty]
        rfl
      · rw [if_neg (by simp [mt hzero.mp hempty]), if_neg hempty, ok_bind, hread, ok_bind]
        split_ifs <;> rfl

end

/-! ## Accepted texts -/

namespace ObjectText

/-- The value of the params. -/
def params (q : ObjectText) : Option Value := lastValue q.value.members (ascii "params")

/-- What an accepted message asks for. -/
def request (q : ObjectText) : Except Bytes (Bytes × Bytes) :=
  (q.params.map Value.request).getD (.error (ascii "Invalid params"))

/-- An accepted text asks for what its params ask for, however deep its values are. -/
theorem toolRequest_eq (q : ObjectText) {msg : MCPMessage}
    (hparse : MCPMessage.parse (some q.text) kDefaultMaxBytes = .ok msg) (hvalid : msg.valid) :
    toolRequest msg = .ok q.request := by
  obtain ⟨buf, hbuf, hmax, hreadable⟩ := parse_readable hparse hvalid
  cases hbuf
  have hshows := shows_of_parse q.before q.value q.after hparse hvalid
  have hreads : msg.params.Reads q.text (q.params.map Value.text) := hshows.params
  rw [request]
  cases hparams : q.params with
  | none =>
      rw [hparams] at hreads
      exact toolRequest_null hreads
  | some v =>
      rw [hparams] at hreads
      exact toolRequest_value hreadable hreads ((Span.length_le hreads.2).trans hmax)

theorem plain_id : (ascii "id").all isStrChar := by decide

theorem plain_method : (ascii "method").all isStrChar := by decide

theorem plain_params : (ascii "params").all isStrChar := by decide

theorem plain_toolsCall : (ascii "tools/call").all isStrChar := by decide

/-- A call with these params. -/
def call (params : Value) : ObjectText where
  before := .none
  value :=
    let key (s : Bytes) (h : s.all isStrChar) : Label .object := .key (.plain s h) .none .none
    .container .object (.more .none (key (ascii "id") plain_id) (.number (.ofInt 1)) .none
      (.more .none (key (ascii "method") plain_method)
        (.string (.plain (ascii "tools/call") plain_toolsCall)) .none
        (.last .none (key (ascii "params") plain_params) params .none)))
  after := .none
  isObject := rfl

/-- Params with the arguments in front of the name. -/
def callParams (tool : Str) (args : Value) : Value :=
  let key (s : Bytes) (h : s.all isStrChar) : Label .object := .key (.plain s h) .none .none
  .container .object (.more .none (key (ascii "arguments") plain_arguments) args .none
    (.last .none (key (ascii "name") plain_name) (.string tool) .none))

end ObjectText

end McpToolkit
