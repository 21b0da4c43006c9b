import McpToolkit.Adapter.Gate
import McpToolkit.Adapter.Requests
import McpToolkit.Json.Tree
/-!
# Metacharacters in arguments

Before a tool is called its arguments are searched for metacharacters of a shell, as
they are written.  The tool reads them decoded, and an escape can stand for each of these
characters.
-/

namespace McpToolkit

open InputValidationHandler

namespace MCPAdapter

/-! ## The check -/

section check

variable {σ : Type} {server : Server σ} {s s' : AdapterState σ} {msg : MCPMessage}
variable {events : List Event} {name args : Bytes} {user user' : Option User}

theorem handleToolsCall_checked (h : handleToolsCall server s msg user' = .ok (s', events))
    (hcall : .callTool name args user ∈ events) : containsShellMetacharacters args = false := by
  obtain ⟨hrequest, -⟩ := handleToolsCall_called h hcall
  obtain ⟨-, -, -, -, -, -, hchecked, -⟩ := toolRequest_ok hrequest
  exact hchecked

/-- Only `tools/call` calls a tool. -/
theorem authorized_checked {u : User} (h : authorized server s msg u = .ok (s', events))
    (hcall : .callTool name args user ∈ events) : containsShellMetacharacters args = false := by
  have hmethods : ∀ caller : Option User, (do
      if ← methodIs msg (ascii "initialize") then return (s, handleInitialize s.adapter msg)
      if ← methodIs msg (ascii "tools/list") then return handleToolsList server s msg
      if ← methodIs msg (ascii "tools/call") then return ← handleToolsCall server s msg caller
      return (s, [sendError msg.id (-32601) (ascii "Method not found")]) :
        Except Fault (AdapterState σ × List Event)) = .ok (s', events) →
      containsShellMetacharacters args = false := by
    intro caller h
    obtain ⟨first, -, h⟩ := bind_eq_ok h
    split_ifs at h
    · cases h
      simp [handleInitialize, send] at hcall
    obtain ⟨list, -, h⟩ := bind_eq_ok h
    split_ifs at h
    · have hevents : (handleToolsList server s msg).2 = events :=
        congrArg Prod.snd (Except.ok.inj h)
      rw [← hevents] at hcall
      exact absurd hcall callTool_not_mem_handleToolsList
    obtain ⟨call, -, h⟩ := bind_eq_ok h
    split_ifs at h
    · exact handleToolsCall_checked h hcall
    · cases h
      simp [sendError, send] at hcall
  unfold authorized at h
  dsimp only at h
  generalize (if s.adapter.authEnabled then some u else none) = caller at h
  split at h
  · obtain ⟨methodName, -, h⟩ := bind_eq_ok h
    split at h
    · cases h
      simp [sendError, send] at hcall
    · exact hmethods _ h
  · exact hmethods _ h

/-- Whenever a tool is called, its arguments have passed the check. -/
theorem dispatch_checked {hmac : Bytes → Bytes → Digest} {now later : Int}
    (h : dispatch server hmac now later s msg = .ok (s', events))
    (hcall : .callTool name args user ∈ events) : containsShellMetacharacters args = false := by
  unfold dispatch at h
  split_ifs at h
  · cases h
    cases hcall
  · cases h
    cases hcall
  · obtain ⟨⟨token, s₁⟩, -, h⟩ := bind_eq_ok h
    dsimp only at h
    split at h
    · cases h
      simp [sendError, send] at hcall
    · obtain ⟨⟨s₂, events'⟩, hserved, h⟩ := bind_eq_ok h
      cases h
      exact authorized_checked hserved ((List.mem_cons.mp hcall).resolve_left (by simp))
  · exact authorized_checked h hcall

end check

/-! ## What the check misses -/

/-- An escape that stands for a metacharacter. -/
def HidesMetacharacter : StrChar → Prop
  | .plain _ _ => False
  | c => ∃ b ∈ metacharacters, c.ascii? = some b

theorem lt_of_mem_metacharacters {b : UInt8} (h : b ∈ metacharacters) : b < 0x80 := by
  have hall : ∀ b ∈ metacharacters, b < 0x80 := by decide +kernel
  exact hall b h

/-- Behind the check only escapes are left to stand for metacharacters. -/
theorem clean_iff {s : Str} (h : ∀ b ∈ s.text, b ∉ metacharacters) :
    containsShellMetacharacters s.unescape = false ↔ ∀ c ∈ s.chars, ¬ HidesMetacharacter c := by
  rw [← Bool.not_eq_true, containsShellMetacharacters_iff]
  constructor
  · intro hclean c hc hhides
    cases c with
    | plain b hb => exact hhides
    | escape e he =>
        obtain ⟨b, hb, hstands⟩ := hhides
        exact hclean ⟨b, (s.mem_unescape (lt_of_mem_metacharacters hb)).mpr ⟨_, hc, hstands⟩, hb⟩
    | unicode a b c d hx =>
        obtain ⟨b, hb, hstands⟩ := hhides
        exact hclean ⟨b, (s.mem_unescape (lt_of_mem_metacharacters hb)).mpr ⟨_, hc, hstands⟩, hb⟩
  · rintro hhidden ⟨b, hmem, hb⟩
    obtain ⟨c, hc, hstands⟩ := (s.mem_unescape (lt_of_mem_metacharacters hb)).mp hmem
    have hnot := hhidden c hc
    cases c with
    | plain d hd =>
        rw [StrChar.ascii?, Option.ite_none_right_eq_some, Option.some.injEq] at hstands
        refine h d (List.mem_flatMap.mpr ⟨_, hc, List.mem_singleton_self d⟩) ?_
        rw [hstands.2]
        exact hb
    | escape e he => exact hnot ⟨b, hb, hstands⟩
    | unicode a b c d hx => exact hnot ⟨_, hb, hstands⟩

/-- No string in the arguments of a call decodes to a text with metacharacters exactly if no
escape in them stands for one. -/
theorem call_clean_iff {σ : Type} {server : Server σ} {s s' : AdapterState σ} {msg : MCPMessage}
    {hmac : Bytes → Bytes → Digest} {now later : Int} {events : List Event} {name : Bytes}
    {user : Option User} {args : JsonText}
    (hdispatch : dispatch server hmac now later s msg = .ok (s', events))
    (hcall : .callTool name args.text user ∈ events) :
    (∀ str ∈ args.value.strs, containsShellMetacharacters str.unescape = false) ↔
      ∀ str ∈ args.value.strs, ∀ c ∈ str.chars, ¬ HidesMetacharacter c := by
  have hchecked := dispatch_checked hdispatch hcall
  rw [← Bool.not_eq_true, containsShellMetacharacters_iff] at hchecked
  refine forall₂_congr fun str hstr => clean_iff fun b hb hmeta => hchecked ⟨b, ?_, hmeta⟩
  simp [JsonText.text, Value.mem_text hstr hb]

/-! ## A semicolon -/

/-- A call of the tool `t` with a command, as it is written. -/
def commandLine (cmd : Bytes) : Bytes :=
  ascii "\x7b\"id\":1,\"method\":\"tools/call\",\"params\":\x7b\"name\":\"t\",\"arguments\":\x7b\"cmd\":\"" ++
    cmd ++ ascii "\"\x7d\x7d\x7d"

def commandMessage (cmd : Bytes) : MCPMessage where
  method := ⟨some 18, 10⟩
  id := some 1
  params := ⟨some 39, cmd.length + 35⟩
  isRequest := true
  valid := true
  rawInput := some (commandLine cmd)
  rawLen := (commandLine cmd).length

/-- The arguments with this command. -/
def commandArgs (cmd : Str) : JsonText where
  before := .none
  value := .container .object
    (.last .none (.key (.plain (ascii "cmd") (by decide)) .none .none) (.string cmd) .none)
  after := .none

/-- The call reaches the tool. -/
def Executes (cmd : Str) : Prop :=
  ∃ s' events, dispatch (Server.base Unit) secretHmac 0 0 ⟨{}, ()⟩ (commandMessage cmd.text) =
    .ok (s', events) ∧ .callTool (ascii "t") (commandArgs cmd).text none ∈ events

theorem executes_of_computed {cmd : Str} (h : (dispatch (Server.base Unit) secretHmac 0 0 ⟨{}, ()⟩
    (commandMessage cmd.text)).toOption.map
      (fun r => decide (.callTool (ascii "t") (commandArgs cmd).text none ∈ r.2)) = some true) :
    Executes cmd := by
  unfold Executes
  cases hdispatch : dispatch (Server.base Unit) secretHmac 0 0 ⟨{}, ()⟩ (commandMessage cmd.text) with
  | error fault =>
      rw [hdispatch] at h
      cases h
  | ok r =>
      rw [hdispatch] at h
      exact ⟨r.1, r.2, rfl, of_decide_eq_true (Option.some.inj h)⟩

def listCommand : Str := .plain (ascii "ls") (by decide)

theorem call_clean_iff_of_list : containsShellMetacharacters listCommand.unescape = false := by
  obtain ⟨s', events, hdispatch, hcall⟩ : Executes listCommand :=
    executes_of_computed (by decide +kernel)
  have hclean := (call_clean_iff hdispatch hcall).mpr
  have hmem : listCommand ∈ (commandArgs listCommand).value.strs := by
    simp [commandArgs, Value.strs, Entries.strs]
  refine hclean (fun str hstr c hc hhides => ?_) listCommand hmem
  have hplain : ∃ s h, str = Str.plain s h := by
    rcases List.mem_append.mp hstr with h | h
    · exact ⟨_, _, List.mem_singleton.mp h⟩
    · exact ⟨_, _, List.mem_singleton.mp h⟩
  obtain ⟨s, h, rfl⟩ := hplain
  obtain ⟨b, hb, rfl⟩ := Str.plain_chars c hc
  exact hhides

/-- A semicolon between two letters, written as an escape. -/
def semicolonCommand : Str :=
  ⟨[.plain 0x61 (by decide), .unicode 0x30 0x30 0x33 0x62 (by decide +kernel),
    .plain 0x62 (by decide)]⟩

theorem semicolon_passes :
    MCPMessage.parse (some (commandLine semicolonCommand.text)) kDefaultMaxBytes =
        .ok (commandMessage semicolonCommand.text) ∧
      Executes semicolonCommand ∧
      ¬ ∀ str ∈ (commandArgs semicolonCommand).value.strs,
        containsShellMetacharacters str.unescape = false := by
  refine ⟨by decide +kernel, executes_of_computed (by decide +kernel), fun hclean => ?_⟩
  have hdecoded : containsShellMetacharacters semicolonCommand.unescape = true := by decide +kernel
  rw [hclean semicolonCommand (by simp [commandArgs, Value.strs, Entries.strs])] at hdecoded
  cases hdecoded

end MCPAdapter

end McpToolkit
