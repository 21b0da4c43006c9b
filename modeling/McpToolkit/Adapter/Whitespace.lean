import McpToolkit.Adapter.Wanted
/-!
# White space in a call

White space between the tokens changes neither the name that a call asks for nor what
its arguments stand for.  But the check for metacharacters reads the white space, too.
-/

namespace McpToolkit

open MCPAdapter InputValidationHandler

/-! ## Without white space -/

/-- The member without white space, and without what follows it. -/
def Placed.squeeze (m : Placed) : Placed := ⟨m.name, m.value.squeeze, []⟩

def Token.squeeze : Token → Token
  | .key _ _ m => .key .none .none m.squeeze
  | .value s _ => .value s []

theorem Token.squeeze_text (t : Token) : t.squeeze.text = t.text := by
  cases t <;> rfl

theorem Token.squeeze_member? (t : Token) : t.squeeze.member? = t.member?.map Placed.squeeze := by
  cases t <;> rfl

theorem Placed.squeeze_stringMember (key : Bytes) (m : Placed) :
    StringMember key m.squeeze ↔ StringMember key m := by
  rw [StringMember, StringMember, Placed.squeeze, Value.squeeze_string?]

theorem find?_map_same {α : Type} {f : α → α} {p : α → Bool} (hp : ∀ x, p (f x) = p x)
    (l : List α) : (l.map f).find? p = (l.find? p).map f := by
  have hcomp : p ∘ f = p := funext hp
  rw [List.find?_map, hcomp]

theorem Label.tokens_squeeze {k : Kind} (l : Label k) (v : Value) (r r' : Bytes) :
    (l.tokens v r).map Token.squeeze = (l.squeeze.tokens v.squeeze r').map Token.squeeze := by
  cases l with
  | element => rfl
  | key s w w' =>
      simp only [Label.squeeze, Label.tokens, List.map_cons, List.map_nil, Token.squeeze,
        Placed.squeeze, Value.squeeze_squeeze]

mutual

/-- The strings of a value are those of the value without white space. -/
theorem Value.tokens_squeeze : ∀ (v : Value) (r r' : Bytes),
    (v.tokens r).map Token.squeeze = (v.squeeze.tokens r').map Token.squeeze
  | .literal _, _, _ => rfl
  | .number _, _, _ => rfl
  | .string _, _, _ => rfl
  | .empty _ _, _, _ => rfl
  | .container k es, r, r' => es.tokens_squeeze (k.closing :: r) (k.closing :: r')

theorem Entries.tokens_squeeze : ∀ {k : Kind} (es : Entries k) (r r' : Bytes),
    (es.tokens r).map Token.squeeze = (es.squeeze.tokens r').map Token.squeeze
  | _, .last w l v w', r, r' => by
      rw [Entries.squeeze, Entries.tokens, Entries.tokens, List.map_append, List.map_append,
        l.tokens_squeeze v _ _, v.tokens_squeeze _ _]
  | _, .more w l v w' es, r, r' => by
      rw [Entries.squeeze, Entries.tokens, Entries.tokens, List.map_append, List.map_append,
        List.map_append, List.map_append, l.tokens_squeeze v _ _, v.tokens_squeeze _ _,
        es.tokens_squeeze r r']

end

namespace Value

variable {v v' : Value}

theorem tokens_congr (h : v.squeeze = v'.squeeze) :
    (v.tokens []).map Token.squeeze = (v'.tokens []).map Token.squeeze := by
  rw [v.tokens_squeeze [] [], h, ← v'.tokens_squeeze [] []]

theorem filterMap_squeeze (ts : List Token) :
    (ts.map Token.squeeze).filterMap Token.member? =
      (ts.filterMap Token.member?).map Placed.squeeze := by
  rw [List.filterMap_map, List.map_filterMap]
  exact List.filterMap_congr fun t _ => t.squeeze_member?

theorem toolName_congr (h : v.squeeze = v'.squeeze) : v.toolName = v'.toolName := by
  have hsqueezed : ∀ v : Value, v.toolName =
      ((((v.tokens []).map Token.squeeze).filterMap Token.member?).find? fun m =>
        StringMember (ascii "name") m).bind (·.value.string?) := by
    intro v
    rw [filterMap_squeeze, find?_map_same fun m => by
      rw [decide_eq_decide]
      exact m.squeeze_stringMember _, toolName, Option.bind_map]
    congr 1
    funext m
    exact m.value.squeeze_string?.symm
  rw [hsqueezed v, hsqueezed v', tokens_congr h]

theorem argumentsMember_congr (h : v.squeeze = v'.squeeze) :
    v.argumentsMember.map Placed.squeeze = v'.argumentsMember.map Placed.squeeze := by
  have hsqueezed : ∀ v : Value, v.argumentsMember.map Placed.squeeze =
      (((v.tokens []).map Token.squeeze).find? fun t =>
        Hit (ascii "arguments") t.text).bind Token.member? := by
    intro v
    rw [find?_map_same fun t => by rw [t.squeeze_text], argumentsMember, Option.bind_map,
      Option.map_bind]
    congr 1
    funext t
    exact t.squeeze_member?.symm
  rw [hsqueezed v, hsqueezed v', tokens_congr h]

/-- What the white space does not change is the same of the arguments of both. -/
theorem arguments_congr {α : Type} {f : Value → α} (hf : ∀ v : Value, f v.squeeze = f v)
    (h : v.squeeze = v'.squeeze) :
    (v.argumentsMember.map fun m => f m.value) = v'.argumentsMember.map fun m => f m.value := by
  have hsqueezed : ∀ v : Value, (v.argumentsMember.map fun m => f m.value) =
      (v.argumentsMember.map Placed.squeeze).map fun m => f m.value := by
    intro v
    rw [Option.map_map]
    congr 1
    funext m
    exact (hf m.value).symm
  rw [hsqueezed v, hsqueezed v', argumentsMember_congr h]

theorem argumentsStrs_congr (h : v.squeeze = v'.squeeze) : v.argumentsStrs = v'.argumentsStrs := by
  rw [argumentsStrs, argumentsStrs, arguments_congr squeeze_strs h]

theorem argumentsJson_congr (h : v.squeeze = v'.squeeze) : v.argumentsJson = v'.argumentsJson := by
  rw [argumentsJson, argumentsJson, arguments_congr squeeze_json h]

theorem decodes_argumentsText (v : Value) : Decodes v.argumentsText v.argumentsJson := by
  rw [argumentsText, argumentsJson]
  cases v.argumentsMember with
  | none => exact .of_value (.empty .object .none)
  | some m => exact ⟨.none, ⟨m.trailing, m.trailing_blank⟩, m.value, rfl, rfl⟩

end Value

/-! ## Metacharacters -/

/-- The check of the arguments. -/
def hasMetacharacters (w : Bytes) : Bool :=
  containsShellMetacharacters w || containsEncodedMetacharacters w

theorem containsShellMetacharacters_value (v : Value) (w : Bytes) :
    containsShellMetacharacters (v.text ++ w) = true ↔
      (∃ s ∈ v.strs, containsShellMetacharacters s.text = true) ∨
        containsShellMetacharacters (v.blanks ++ w) = true := by
  have hmarkup : ∀ b ∈ metacharacters, isMarkup b = false := by decide +kernel
  simp only [containsShellMetacharacters_iff, List.mem_append]
  constructor
  · rintro ⟨b, hmem | hmem, hb⟩
    · rcases (v.mem_text_iff (hmarkup b hb)).mp hmem with hblank | ⟨s, hs, hmem⟩
      · exact .inr ⟨b, .inl hblank, hb⟩
      · exact .inl ⟨s, hs, b, hmem, hb⟩
    · exact .inr ⟨b, .inr hmem, hb⟩
  · rintro (⟨s, hs, b, hmem, hb⟩ | ⟨b, hmem | hmem, hb⟩)
    · exact ⟨b, .inl ((v.mem_text_iff (hmarkup b hb)).mpr (.inr ⟨s, hs, hmem⟩)), hb⟩
    · exact ⟨b, .inl ((v.mem_text_iff (hmarkup b hb)).mpr (.inl hmem)), hb⟩
    · exact ⟨b, .inr hmem, hb⟩

theorem containsEncodedMetacharacters_value (v : Value) {w : Bytes} (hw : ∀ b ∈ w, isBlank b) :
    containsEncodedMetacharacters (v.text ++ w) = true ↔
      ∃ s ∈ v.strs, containsEncodedMetacharacters s.text = true := by
  have hshape : ∀ p ∈ encodedPatterns, p.head? = some 0x25 ∧ quote ∉ p.tail := by decide +kernel
  have hpattern : ∀ p ∈ encodedPatterns,
      (p <:+: v.text ++ w ↔ ∃ s ∈ v.strs, p <:+: s.text) := by
    intro p hp
    obtain ⟨hhead, hquote⟩ := hshape p hp
    obtain ⟨t, rfl⟩ := List.head?_eq_some_iff.mp hhead
    change quote ∉ t at hquote
    have hrest : ¬ 0x25 :: t <:+: w := by
      have hnot : (0x25 : UInt8) ∉ w := fun h => absurd (hw _ h) (by decide)
      exact fun h => hnot (h.subset List.mem_cons_self)
    rw [v.infix_text (by decide +kernel) (by decide) hquote, or_iff_left hrest]
  simp only [containsEncodedMetacharacters_iff]
  constructor
  · rintro ⟨p, hp, hpart⟩
    obtain ⟨s, hs, hpart⟩ := (hpattern p hp).mp hpart
    exact ⟨s, hs, p, hp, hpart⟩
  · rintro ⟨s, hs, p, hp, hpart⟩
    exact ⟨p, hp, (hpattern p hp).mpr ⟨s, hs, hpart⟩⟩

/-- The check finds something in a string or in the white space. -/
theorem hasMetacharacters_arguments (v : Value) : hasMetacharacters v.argumentsText = true ↔
    (∃ s ∈ v.argumentsStrs, hasMetacharacters s.text = true) ∨
      containsShellMetacharacters v.argumentsBlanks = true := by
  rw [Value.argumentsText, Value.argumentsStrs, Value.argumentsBlanks]
  cases v.argumentsMember with
  | none => decide +kernel
  | some m =>
      simp only [hasMetacharacters, Option.map_some, Option.getD_some, Bool.or_eq_true,
        containsShellMetacharacters_value, containsEncodedMetacharacters_value _ m.trailing_blank,
        and_or_left, exists_or]
      exact or_right_comm

/-! ## The verdict -/

section verdict

variable {σ : Type} (server : Server σ) (s : AdapterState σ) (user : Option User)

/-- A call is answered with an error. -/
def Refuses (msg : MCPMessage) (code : Int) (message : Bytes) : Prop :=
  handleToolsCall server s msg user =
    .ok (s, [.handleToolsCall, sendError msg.id code message])

/-- Two calls are answered with the same error, or they call the same tool with arguments
that stand for the same. -/
def SameVerdict (msg₁ msg₂ : MCPMessage) : Prop :=
  (∃ code message, Refuses server s user msg₁ code message ∧
    Refuses server s user msg₂ code message) ∨
  ∃ name args₁ args₂ j, Invokes server s user msg₁ name args₁ ∧
    Invokes server s user msg₂ name args₂ ∧ Decodes args₁ j ∧ Decodes args₂ j

variable {server s user} {msg msg₁ msg₂ : MCPMessage}

theorem refuses_of_toolRequest {message : Bytes} (h : toolRequest msg = .ok (.error message)) :
    Refuses server s user msg (-32602) message := by
  rw [Refuses, handleToolsCall_eq, h]
  rfl

theorem Refuses.isOk {code : Int} {message : Bytes} (h : Refuses server s user msg code message)
    {r : Except Bytes (Bytes × Bytes)} (hr : toolRequest msg = .ok r) : r.isOk = false := by
  rw [Refuses, handleToolsCall_eq, hr] at h
  cases r with
  | error message => rfl
  | ok call =>
      have hevents := congrArg Prod.snd (Except.ok.inj h)
      cases congrArg List.length hevents

theorem Invokes.isOk {name args : Bytes} (h : Invokes server s user msg name args)
    {r : Except Bytes (Bytes × Bytes)} (hr : toolRequest msg = .ok r) : r.isOk = true := by
  obtain ⟨s', events, hrun, hcall⟩ := h
  obtain ⟨hrequest, -⟩ := handleToolsCall_called hrun hcall
  rw [hr] at hrequest
  cases hrequest
  rfl

theorem SameVerdict.isOk (h : SameVerdict server s user msg₁ msg₂)
    {r₁ r₂ : Except Bytes (Bytes × Bytes)} (h₁ : toolRequest msg₁ = .ok r₁)
    (h₂ : toolRequest msg₂ = .ok r₂) : r₁.isOk = r₂.isOk := by
  rcases h with ⟨code, message, hrefuses, hrefuses'⟩ | ⟨name, args, args', j, hcalls, hcalls', -⟩
  · rw [hrefuses.isOk h₁, hrefuses'.isOk h₂]
  · rw [hcalls.isOk h₁, hcalls'.isOk h₂]

end verdict

namespace Value

/-- The white space of two values makes no difference: no tool is named, a string in the
arguments is refused whatever stands around it, or the white space in the arguments of
both has a metacharacter or that of neither has one. -/
def LayoutAgrees (v v' : Value) : Prop :=
  v.toolName = none ∨ v.toolName = some [] ∨
    (∃ s ∈ v.argumentsStrs, hasMetacharacters s.text = true) ∨
    (containsShellMetacharacters v.argumentsBlanks = true ↔
      containsShellMetacharacters v'.argumentsBlanks = true)

instance (v v' : Value) : Decidable (v.LayoutAgrees v') :=
  inferInstanceAs (Decidable (_ ∨ _ ∨ _ ∨ _))

theorem request_unnamed {v : Value} (h : v.toolName = none ∨ v.toolName = some []) :
    v.request = .error (ascii "Missing tool name") := by
  rw [request]
  rcases h with h | h
  · rw [h]
  · rw [h]
    rfl

theorem request_named {v : Value} {name : Bytes} (h : v.toolName = some name) (hne : name ≠ []) :
    v.request = if hasMetacharacters v.argumentsText then
        .error (ascii "Arguments contain invalid characters (potential injection)")
      else .ok (name, v.argumentsText) := by
  rw [request, h]
  exact if_neg hne

/-- Both checks see the same strings, but each its own white space. -/
theorem layoutAgrees_iff {v v' : Value} {name : Bytes} (hname : v.toolName = some name)
    (hne : name ≠ []) (hsame : v.squeeze = v'.squeeze) : v.LayoutAgrees v' ↔
      (hasMetacharacters v.argumentsText = true ↔ hasMetacharacters v'.argumentsText = true) := by
  have hnamed : ¬ v.toolName = none ∧ ¬ v.toolName = some [] := by
    rw [hname]
    simp [hne]
  rw [LayoutAgrees, or_iff_right hnamed.1, or_iff_right hnamed.2, hasMetacharacters_arguments,
    hasMetacharacters_arguments, ← argumentsStrs_congr hsame]
  by_cases hstring : ∃ s ∈ v.argumentsStrs, hasMetacharacters s.text = true
  · exact iff_of_true (.inl hstring) (iff_of_true (.inl hstring) (.inl hstring))
  · rw [or_iff_right hstring, or_iff_right hstring, or_iff_right hstring]

end Value

section verdict

variable {σ : Type} {server : Server σ} {s : AdapterState σ} {user : Option User}
variable {msg₁ msg₂ : MCPMessage} {v₁ v₂ : Value}

/-- Two calls whose params differ in white space only. -/
theorem sameVerdict_iff (h₁ : toolRequest msg₁ = .ok v₁.request)
    (h₂ : toolRequest msg₂ = .ok v₂.request) (hsame : v₁.squeeze = v₂.squeeze) :
    SameVerdict server s user msg₁ msg₂ ↔ v₁.LayoutAgrees v₂ := by
  have hname := Value.toolName_congr hsame
  by_cases hunnamed : v₁.toolName = none ∨ v₁.toolName = some []
  · have hunnamed' := hunnamed
    rw [hname] at hunnamed'
    rw [Value.request_unnamed hunnamed] at h₁
    rw [Value.request_unnamed hunnamed'] at h₂
    refine iff_of_true (.inl ⟨_, _, refuses_of_toolRequest h₁, refuses_of_toolRequest h₂⟩) ?_
    exact hunnamed.imp_right .inl
  rw [not_or] at hunnamed
  obtain ⟨name, hfound⟩ := Option.ne_none_iff_exists'.mp hunnamed.1
  have hne : name ≠ [] := by
    rintro rfl
    exact hunnamed.2 hfound
  rw [Value.request_named hfound hne] at h₁
  rw [Value.request_named (hname ▸ hfound) hne] at h₂
  rw [Value.layoutAgrees_iff hfound hne hsame]
  constructor
  · intro hverdict
    have hok := hverdict.isOk h₁ h₂
    split_ifs at hok with hrefused hrefused' hrefused'
    · exact iff_of_true hrefused hrefused'
    · cases hok
    · cases hok
    · exact iff_of_false hrefused hrefused'
  · intro hiff
    by_cases hrefused : hasMetacharacters v₁.argumentsText = true
    · rw [if_pos hrefused] at h₁
      rw [if_pos (hiff.mp hrefused)] at h₂
      exact .inl ⟨_, _, refuses_of_toolRequest h₁, refuses_of_toolRequest h₂⟩
    · rw [if_neg hrefused] at h₁
      rw [if_neg (mt hiff.mpr hrefused)] at h₂
      have hdecodes := v₂.decodes_argumentsText
      rw [← Value.argumentsJson_congr hsame] at hdecodes
      exact .inr ⟨name, _, _, v₁.argumentsJson, invokes_of_toolRequest h₁,
        invokes_of_toolRequest h₂, v₁.decodes_argumentsText, hdecodes⟩

end verdict

/-! ## Whole texts -/

theorem ObjectText.params_congr {q q' : ObjectText} (h : q.value.squeeze = q'.value.squeeze) :
    q.params.map Value.squeeze = q'.params.map Value.squeeze := by
  have hsqueezed : ∀ q : ObjectText, q.params.map Value.squeeze =
      lastValue q.value.squeeze.members (ascii "params") := by
    intro q
    have hfind := find?_map_same (f := fun m : Bytes × Value => (m.1, m.2.squeeze))
      (p := fun m => m.1 = ascii "params") (fun _ => rfl) q.value.members.reverse
    rw [params, lastValue, lastValue, q.value.squeeze_members, ← List.map_reverse, hfind,
      Option.map_map, Option.map_map]
    rfl
  rw [hsqueezed q, hsqueezed q', h]

/-- Of two accepted texts that differ in white space between tokens only, both get the same
verdict exactly if the white space of their params makes no difference.  Their values may be of
any depth that is accepted. -/
theorem whitespace_verdict_iff {σ : Type} {server : Server σ} {s : AdapterState σ}
    {user : Option User} {q₁ q₂ : ObjectText} {msg₁ msg₂ : MCPMessage}
    (hsame : q₁.value.squeeze = q₂.value.squeeze)
    (h₁ : MCPMessage.parse (some q₁.text) kDefaultMaxBytes = .ok msg₁) (hvalid₁ : msg₁.valid)
    (h₂ : MCPMessage.parse (some q₂.text) kDefaultMaxBytes = .ok msg₂) (hvalid₂ : msg₂.valid) :
    SameVerdict server s user msg₁ msg₂ ↔
      ∀ v₁ ∈ q₁.params, ∀ v₂ ∈ q₂.params, v₁.LayoutAgrees v₂ := by
  have hparams := ObjectText.params_congr hsame
  have hrequest₁ := q₁.toolRequest_eq h₁ hvalid₁
  have hrequest₂ := q₂.toolRequest_eq h₂ hvalid₂
  rw [ObjectText.request] at hrequest₁ hrequest₂
  cases hv₁ : q₁.params with
  | none =>
      rw [hv₁] at hparams hrequest₁
      rw [Option.map_eq_none_iff.mp hparams.symm] at hrequest₂
      refine iff_of_true ?_ fun v₁ h => absurd h (Option.not_mem_none v₁)
      exact .inl ⟨_, _, refuses_of_toolRequest hrequest₁, refuses_of_toolRequest hrequest₂⟩
  | some v₁ =>
      rw [hv₁] at hparams hrequest₁
      obtain ⟨v₂, hv₂, hsqueeze⟩ := Option.map_eq_some_iff.mp hparams.symm
      rw [hv₂] at hrequest₂ ⊢
      rw [sameVerdict_iff hrequest₁ hrequest₂ hsqueeze.symm]
      simp

theorem spaced_tool : (ascii "t").all isStrChar := by decide

theorem spaced_argument : (ascii "a").all isStrChar := by decide

/-- Params for the tool `t`, with white space in front of its argument. -/
def spacedParams (w : Ws) (v : Value) : Value :=
  let key (s : Bytes) (h : s.all isStrChar) : Label .object := .key (.plain s h) .none .none
  .container .object (.more .none (key (ascii "name") ObjectText.plain_name)
    (.string (.plain (ascii "t") spaced_tool)) .none
    (.last .none (key (ascii "arguments") ObjectText.plain_arguments) (.container .object
      (.last .none (.key (.plain (ascii "a") spaced_argument) .none w) v .none)) .none))

/-- A call with these params. -/
def spacedCall (w : Ws) (v : Value) : ObjectText := .call (spacedParams w v)

def oneSpace : Ws := ⟨[space], by decide +kernel⟩

def oneTab : Ws := ⟨[9], by decide +kernel⟩

/-- Arrays in arrays. -/
def nestedArrays : Nat → Value
  | 0 => .empty .array .none
  | n + 1 => .container .array (.last .none .element (nestedArrays n) .none)

theorem exists_accepted (line : Bytes) (h : ((MCPMessage.parse (some line)
    kDefaultMaxBytes).toOption.map fun msg => msg.valid) = some true) :
    ∃ msg, MCPMessage.parse (some line) kDefaultMaxBytes = .ok msg ∧ msg.valid = true := by
  cases hparse : MCPMessage.parse (some line) kDefaultMaxBytes with
  | error fault =>
      rw [hparse] at h
      cases h
  | ok msg =>
      rw [hparse] at h
      exact ⟨msg, rfl, Option.some.inj h⟩

/-- A tab is tolerated, in front of a hundred arrays. -/
theorem whitespace_verdict_iff_of_tab :
    ∃ msg₁ msg₂,
      MCPMessage.parse (some (spacedCall .none (nestedArrays 99)).text) kDefaultMaxBytes =
        .ok msg₁ ∧
      MCPMessage.parse (some (spacedCall oneTab (nestedArrays 99)).text) kDefaultMaxBytes =
        .ok msg₂ ∧
      SameVerdict (Server.base Unit) ⟨{}, ()⟩ none msg₁ msg₂ := by
  have hsame : (spacedCall .none (nestedArrays 99)).value.squeeze =
      (spacedCall oneTab (nestedArrays 99)).value.squeeze := rfl
  obtain ⟨msg₁, hparse₁, hvalid₁⟩ :=
    exists_accepted (spacedCall .none (nestedArrays 99)).text (by decide +kernel)
  obtain ⟨msg₂, hparse₂, hvalid₂⟩ :=
    exists_accepted (spacedCall oneTab (nestedArrays 99)).text (by decide +kernel)
  exact ⟨msg₁, msg₂, hparse₁, hparse₂,
    (whitespace_verdict_iff hsame hparse₁ hvalid₁ hparse₂ hvalid₂).mpr (by decide +kernel)⟩

def spacedOne (w : Ws) : ObjectText := spacedCall w (.number (.ofInt 1))

/-- A space in front of an argument changes the verdict. -/
theorem space_changes_verdict :
    (spacedOne .none).text = ascii ("\x7b\"id\":1,\"method\":\"tools/call\",\"params\":" ++
      "\x7b\"name\":\"t\",\"arguments\":\x7b\"a\":1\x7d\x7d\x7d") ∧
    (spacedOne oneSpace).text = ascii ("\x7b\"id\":1,\"method\":\"tools/call\",\"params\":" ++
      "\x7b\"name\":\"t\",\"arguments\":\x7b\"a\": 1\x7d\x7d\x7d") ∧
    (spacedOne .none).value.squeeze = (spacedOne oneSpace).value.squeeze ∧
    ∃ msg₁ msg₂, MCPMessage.parse (some (spacedOne .none).text) kDefaultMaxBytes = .ok msg₁ ∧
      msg₁.valid = true ∧
      MCPMessage.parse (some (spacedOne oneSpace).text) kDefaultMaxBytes = .ok msg₂ ∧
      msg₂.valid = true ∧
      Invokes (Server.base Unit) ⟨{}, ()⟩ none msg₁ (ascii "t") (ascii "\x7b\"a\":1\x7d") ∧
      Refuses (Server.base Unit) ⟨{}, ()⟩ none msg₂ (-32602)
        (ascii "Arguments contain invalid characters (potential injection)") ∧
      ¬ SameVerdict (Server.base Unit) ⟨{}, ()⟩ none msg₁ msg₂ := by
  obtain ⟨msg₁, hparse₁, hvalid₁⟩ :=
    exists_accepted (spacedOne .none).text (by decide +kernel)
  obtain ⟨msg₂, hparse₂, hvalid₂⟩ :=
    exists_accepted (spacedOne oneSpace).text (by decide +kernel)
  have hrequest₁ := (spacedOne .none).toolRequest_eq hparse₁ hvalid₁
  have hrequest₂ := (spacedOne oneSpace).toolRequest_eq hparse₂ hvalid₂
  have hcalls : (spacedOne .none).request = .ok (ascii "t", ascii "\x7b\"a\":1\x7d") := by
    decide +kernel
  have hrefused : (spacedOne oneSpace).request =
      .error (ascii "Arguments contain invalid characters (potential injection)") := by
    decide +kernel
  rw [hcalls] at hrequest₁
  rw [hrefused] at hrequest₂
  refine ⟨by decide +kernel, by decide +kernel, rfl, msg₁, msg₂, hparse₁, hvalid₁, hparse₂, hvalid₂,
    invokes_of_toolRequest hrequest₁, refuses_of_toolRequest hrequest₂, fun hsame => ?_⟩
  cases hsame.isOk hrequest₁ hrequest₂

end McpToolkit
