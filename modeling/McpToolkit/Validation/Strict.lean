import McpToolkit.Adapter.Rules
/-!
# Strict rules

`validate_arguments` goes through the required rules, the optional rules and the names of
the arguments, and stops with a message at the first thing that is wrong.  The passes
together look at every argument: with strict rules they let a map through exactly if it
complies with all of them, in whatever order the rules are.
-/

namespace McpToolkit

/-- A `std::map<std::string, std::string>`, in the order of its keys. -/
structure ArgumentMap where
  entries : List (Bytes × Bytes)
  sorted : entries.Pairwise fun a b => a.1 < b.1

namespace ArgumentMap

def find (m : ArgumentMap) (key : Bytes) : Option Bytes := m.entries.lookup key

theorem find_eq_some_iff {m : ArgumentMap} {key value : Bytes} :
    m.find key = some value ↔ (key, value) ∈ m.entries := by
  rw [find, List.lookup_eq_some_iff]
  constructor
  · rintro ⟨before, after, heq, -⟩
    rw [heq]
    exact List.mem_append_right before List.mem_cons_self
  · intro hmem
    obtain ⟨before, after, heq⟩ := List.append_of_mem hmem
    refine ⟨before, after, heq, fun arg harg => ?_⟩
    have hsorted := m.sorted
    rw [heq, List.pairwise_append] at hsorted
    have hlt : arg.1 < key := hsorted.2.2 arg harg _ List.mem_cons_self
    rw [bne_iff_ne]
    exact fun hkey => List.lt_irrefl key (hkey ▸ hlt)

end ArgumentMap

/-! ## Checks that leave a message -/

/-- A check with a reference to the text in which it leaves its message. -/
abbrev Check := StateM Bytes Bool

namespace Check

/-- The message is set and the check fails. -/
def refuse (message : Bytes) : Check := do
  set message
  return false

/-- The check that leaves a report, if there is one. -/
def ofReport : Option Bytes → Check
  | none => pure true
  | some message => refuse message

variable {check check' : Check} {r r' : Option Bytes} {message : Bytes}

theorem and_eq (h : check = ofReport r) (h' : check' = ofReport r') :
    (check <&&> check') = ofReport (r.or r') := by
  subst h h'
  cases r <;> rfl

theorem allM_eq {α : Type} {check : α → Check} {report : α → Option Bytes} {l : List α}
    (h : ∀ a ∈ l, check a = ofReport (report a)) :
    l.allM check = ofReport (l.findSome? report) := by
  induction l with
  | nil => rfl
  | cons a l ih =>
      rw [List.forall_mem_cons] at h
      rw [List.findSome?_cons, List.allM, h.1, ih h.2]
      cases report a <;> rfl

theorem ofReport_fst :
    ((ofReport r).run message).1 = true ↔ r = none := by
  cases r with
  | none => exact iff_of_true rfl rfl
  | some error => exact iff_of_false Bool.false_ne_true (Option.some_ne_none error)

theorem ofReport_snd (h : r = none) :
    ((ofReport r).run message).2 = message := by
  rw [h]
  rfl

end Check

namespace InputValidationHandler

open Check

section checks

variable (regexMatch : Bytes → Bytes → Except Bytes Bool)

/-- `validate_argument` with the message that it leaves. -/
def validateArgumentInto (rule : ArgumentValidationRule) (value : Bytes) : Check :=
  if !rule.allowShellMetacharacters && containsShellMetacharacters value then
    refuse (ascii "Argument '" ++ rule.argName ++
      ascii "' contains invalid shell metacharacters")
  else if !rule.allowPathTraversal && containsPathTraversal value then
    refuse (ascii "Argument '" ++ rule.argName ++
      ascii "' contains invalid path traversal sequences")
  else if containsEncodedMetacharacters value then
    refuse (ascii "Argument '" ++ rule.argName ++
      ascii "' contains URL-encoded dangerous characters")
  else if rule.pattern.isEmpty then pure true
  else
    match regexMatch rule.pattern value with
    | .ok true => pure true
    | .ok false =>
        refuse (ascii "Argument '" ++ rule.argName ++ ascii "' does not match required pattern")
    | .error what => refuse (ascii "Regex pattern error: " ++ what)

/-- `validate_arguments` with the message that it leaves: the required rules, the optional
ones and then, in strict mode, the names. -/
def validateArgumentsInto (h : InputValidationHandler) (toolName : Bytes)
    (arguments : ArgumentMap) : Check :=
  match h.rules.lookup toolName with
  | none => pure true
  | some toolRules =>
      (toolRules.requiredArgs.allM fun req =>
        match arguments.find req.argName with
        | none => refuse (ascii "Missing required argument: " ++ req.argName)
        | some value => validateArgumentInto regexMatch req value) <&&>
      (toolRules.optionalArgs.allM fun opt =>
        match arguments.find opt.argName with
        | none => pure true
        | some value => validateArgumentInto regexMatch opt value) <&&>
      if toolRules.strictMode then
        let known :=
          toolRules.requiredArgs.map (·.argName) ++ toolRules.optionalArgs.map (·.argName)
        arguments.entries.allM fun arg =>
          if known.contains arg.1 then pure true
          else refuse (ascii "Unknown argument: " ++ arg.1)
      else pure true

theorem validateArgumentInto_eq (rule : ArgumentValidationRule) (value : Bytes) :
    validateArgumentInto regexMatch rule value =
      ofReport (validateArgument regexMatch rule value) := by
  unfold validateArgumentInto validateArgument
  split_ifs
  · rfl
  · rfl
  · rfl
  · rfl
  · cases regexMatch rule.pattern value with
    | error what => rfl
    | ok found => cases found <;> rfl

/-- The message is the report of the first thing that is wrong. -/
theorem validateArgumentsInto_eq (h : InputValidationHandler) (toolName : Bytes)
    (arguments : ArgumentMap) : h.validateArgumentsInto regexMatch toolName arguments =
      ofReport (h.validateArguments regexMatch toolName arguments.entries) := by
  unfold validateArgumentsInto validateArguments
  cases h.rules.lookup toolName with
  | none => rfl
  | some toolRules =>
      refine and_eq (allM_eq fun req _ => ?_) (and_eq (allM_eq fun opt _ => ?_) ?_)
      · rw [ArgumentMap.find]
        cases arguments.entries.lookup req.argName with
        | none => rfl
        | some value => exact validateArgumentInto_eq regexMatch req value
      · rw [ArgumentMap.find]
        cases arguments.entries.lookup opt.argName with
        | none => rfl
        | some value => exact validateArgumentInto_eq regexMatch opt value
      · cases toolRules.strictMode with
        | false => rfl
        | true =>
            refine allM_eq fun arg _ => ?_
            rw [knownArgs, List.map_append]
            split_ifs <;> rfl

end checks

/-- The handler on which rules have been registered one after the other. -/
def registerAll (registered : List ToolValidationRules) : InputValidationHandler :=
  registered.foldl registerToolRules {}

/-- The rules of a tool that were registered last. -/
def lastRules (registered : List ToolValidationRules) (toolName : Bytes) :
    Option ToolValidationRules :=
  registered.reverse.find? fun rules => rules.toolName = toolName

theorem lookup_registerAll (registered : List ToolValidationRules) (toolName : Bytes) :
    (registerAll registered).rules.lookup toolName = lastRules registered toolName := by
  induction registered using List.reverseRecOn with
  | nil => rfl
  | append_singleton registered rules ih =>
      rw [registerAll, List.foldl_append, List.foldl_cons, List.foldl_nil,
        lookup_registerToolRules, lastRules, List.reverse_append, List.reverse_singleton,
        List.singleton_append, List.find?_cons]
      by_cases hname : toolName = rules.toolName
      · rw [if_pos hname, decide_eq_true hname.symm]
      · rw [if_neg hname, decide_eq_false (Ne.symm hname)]
        exact ih

end InputValidationHandler

open InputValidationHandler

/-! ## What rules ask for -/

/-- What a rule asks of a value. -/
structure ArgumentValidationRule.Accepts (regexMatch : Bytes → Bytes → Except Bytes Bool)
    (rule : ArgumentValidationRule) (value : Bytes) : Prop where
  shell : (∃ b ∈ value, b ∈ metacharacters) → rule.allowShellMetacharacters = true
  traversal : ascii ".." <:+: value ∨ ascii "~/" <:+: value → rule.allowPathTraversal = true
  encoded : ∀ pattern ∈ encodedPatterns, ¬ pattern <:+: value
  pattern : rule.pattern ≠ [] → regexMatch rule.pattern value = .ok true

namespace ToolValidationRules

/-- All rules that name an argument. -/
def allArgs (rules : ToolValidationRules) : List ArgumentValidationRule :=
  rules.requiredArgs ++ rules.optionalArgs

/-- What strict rules ask of the arguments. -/
structure Complies (regexMatch : Bytes → Bytes → Except Bytes Bool)
    (rules : ToolValidationRules) (arguments : ArgumentMap) : Prop where
  present : ∀ rule ∈ rules.requiredArgs, ∃ value, (rule.argName, value) ∈ arguments.entries
  known : ∀ key value, (key, value) ∈ arguments.entries →
    ∃ rule ∈ rules.allArgs, rule.argName = key
  encoded : ∀ key value, (key, value) ∈ arguments.entries →
    ∀ pattern ∈ encodedPatterns, ¬ pattern <:+: value
  shell : ∀ key value, (key, value) ∈ arguments.entries → (∃ b ∈ value, b ∈ metacharacters) →
    ∀ rule ∈ rules.allArgs, rule.argName = key → rule.allowShellMetacharacters = true
  traversal : ∀ key value, (key, value) ∈ arguments.entries →
    ascii ".." <:+: value ∨ ascii "~/" <:+: value →
      ∀ rule ∈ rules.allArgs, rule.argName = key → rule.allowPathTraversal = true
  pattern : ∀ key value, (key, value) ∈ arguments.entries →
    ∀ rule ∈ rules.allArgs, rule.argName = key → rule.pattern ≠ [] →
      regexMatch rule.pattern value = .ok true

variable {regexMatch : Bytes → Bytes → Except Bytes Bool} {rules rules' : ToolValidationRules}
variable {arguments : ArgumentMap}

/-- Every value is accepted by all rules that name it, at least one. -/
theorem complies_iff : rules.Complies regexMatch arguments ↔
    (∀ rule ∈ rules.requiredArgs, ∃ value, (rule.argName, value) ∈ arguments.entries) ∧
      (∀ key value, (key, value) ∈ arguments.entries →
        ∃ rule ∈ rules.allArgs, rule.argName = key) ∧
      ∀ key value, (key, value) ∈ arguments.entries → ∀ rule ∈ rules.allArgs,
        rule.argName = key → rule.Accepts regexMatch value := by
  constructor
  · intro h
    refine ⟨h.present, h.known, fun key value hmem rule hrule hname => ?_⟩
    exact {
      shell := fun hmeta => h.shell key value hmem hmeta rule hrule hname
      traversal := fun hdots => h.traversal key value hmem hdots rule hrule hname
      encoded := h.encoded key value hmem
      pattern := h.pattern key value hmem rule hrule hname }
  · rintro ⟨hpresent, hknown, haccepts⟩
    exact {
      present := hpresent
      known := hknown
      encoded := fun key value hmem =>
        have ⟨rule, hrule, hname⟩ := hknown key value hmem
        (haccepts key value hmem rule hrule hname).encoded
      shell := fun key value hmem hmeta rule hrule hname =>
        (haccepts key value hmem rule hrule hname).shell hmeta
      traversal := fun key value hmem hdots rule hrule hname =>
        (haccepts key value hmem rule hrule hname).traversal hdots
      pattern := fun key value hmem rule hrule hname =>
        (haccepts key value hmem rule hrule hname).pattern }

/-- The order of the rules does not matter. -/
theorem Complies.perm (hrequired : rules.requiredArgs.Perm rules'.requiredArgs)
    (hoptional : rules.optionalArgs.Perm rules'.optionalArgs)
    (h : rules.Complies regexMatch arguments) : rules'.Complies regexMatch arguments := by
  have hall : rules.allArgs.Perm rules'.allArgs := hrequired.append hoptional
  rw [complies_iff] at h ⊢
  obtain ⟨hpresent, hknown, haccepts⟩ := h
  refine ⟨fun rule hrule => hpresent rule (hrequired.mem_iff.mpr hrule), fun key value hmem => ?_,
    fun key value hmem rule hrule => haccepts key value hmem rule (hall.mem_iff.mpr hrule)⟩
  obtain ⟨rule, hrule, hname⟩ := hknown key value hmem
  exact ⟨rule, hall.mem_iff.mp hrule, hname⟩

end ToolValidationRules

namespace InputValidationHandler

variable {regexMatch : Bytes → Bytes → Except Bytes Bool}

theorem containsPathTraversal_iff {value : Bytes} :
    containsPathTraversal value = true ↔ ascii ".." <:+: value ∨ ascii "~/" <:+: value := by
  simp [containsPathTraversal]

theorem not_refused_iff {allowed found : Bool} :
    ¬ (!allowed && found) = true ↔ (found = true → allowed = true) := by
  cases allowed <;> cases found <;> decide

/-- Nothing is wrong with the values that the rule accepts. -/
theorem validateArgument_eq_none {rule : ArgumentValidationRule} {value : Bytes} :
    validateArgument regexMatch rule value = none ↔ rule.Accepts regexMatch value := by
  unfold validateArgument
  by_cases hshell : (!rule.allowShellMetacharacters && containsShellMetacharacters value) = true
  · rw [if_pos hshell]
    refine iff_of_false (Option.some_ne_none _) fun h => ?_
    exact not_refused_iff.mpr (fun hmeta => h.shell (containsShellMetacharacters_iff.mp hmeta))
      hshell
  rw [if_neg hshell]
  by_cases htraversal : (!rule.allowPathTraversal && containsPathTraversal value) = true
  · rw [if_pos htraversal]
    refine iff_of_false (Option.some_ne_none _) fun h => ?_
    exact not_refused_iff.mpr (fun hdots => h.traversal (containsPathTraversal_iff.mp hdots))
      htraversal
  rw [if_neg htraversal]
  by_cases hencoded : containsEncodedMetacharacters value = true
  · rw [if_pos hencoded]
    refine iff_of_false (Option.some_ne_none _) fun h => ?_
    obtain ⟨pattern, hpattern, hpart⟩ := containsEncodedMetacharacters_iff.mp hencoded
    exact h.encoded pattern hpattern hpart
  rw [if_neg hencoded]
  -- what is left to decide is the pattern
  have haccepts : rule.Accepts regexMatch value ↔
      (rule.pattern ≠ [] → regexMatch rule.pattern value = .ok true) := by
    refine ⟨fun h => h.pattern, fun hpattern => ⟨?_, ?_, ?_, hpattern⟩⟩
    · rw [← containsShellMetacharacters_iff]
      exact not_refused_iff.mp hshell
    · rw [← containsPathTraversal_iff]
      exact not_refused_iff.mp htraversal
    · intro pattern hpattern hpart
      exact hencoded (containsEncodedMetacharacters_iff.mpr ⟨pattern, hpattern, hpart⟩)
  rw [haccepts]
  by_cases hempty : rule.pattern.isEmpty = true
  · rw [if_pos hempty]
    exact iff_of_true rfl fun hne => absurd (List.isEmpty_iff.mp hempty) hne
  · rw [if_neg hempty, imp_iff_right (mt List.isEmpty_iff.mpr hempty)]
    cases regexMatch rule.pattern value with
    | error what => simp
    | ok found => cases found <;> simp

/-- Nothing is wrong with the arguments that comply with strict rules. -/
theorem validateArguments_eq_none {h : InputValidationHandler} {toolName : Bytes}
    {rules : ToolValidationRules} {arguments : ArgumentMap}
    (hrules : h.rules.lookup toolName = some rules) (hstrict : rules.strictMode = true) :
    h.validateArguments regexMatch toolName arguments.entries = none ↔
      rules.Complies regexMatch arguments := by
  rw [ToolValidationRules.complies_iff]
  constructor
  · intro hnone
    obtain ⟨hnames, hknown⟩ :=
      ToolValidationRules.admits_some_iff.mp (validateArguments_admits hrules hnone)
    rw [validateArguments, hrules] at hnone
    simp only [Option.or_eq_none_iff, List.findSome?_eq_none_iff] at hnone
    obtain ⟨hrequired, hoptional, -⟩ := hnone
    refine ⟨fun rule hrule => ?_, fun key value hmem => ?_,
      fun key value hmem rule hrule hname => ?_⟩
    · obtain ⟨⟨key, value⟩, hmem, hkey⟩ := List.mem_map.mp (hnames rule hrule)
      exact ⟨value, hkey ▸ hmem⟩
    · exact List.mem_map.mp (hknown hstrict key (List.mem_map.mpr ⟨(key, value), hmem, rfl⟩))
    · subst hname
      have hfind : arguments.entries.lookup rule.argName = some value :=
        ArgumentMap.find_eq_some_iff.mpr hmem
      rcases List.mem_append.mp hrule with hreq | hopt
      · have hpass := hrequired rule hreq
        rw [hfind] at hpass
        exact validateArgument_eq_none.mp hpass
      · have hpass := hoptional rule hopt
        rw [hfind] at hpass
        exact validateArgument_eq_none.mp hpass
  · rintro ⟨hpresent, hknown, haccepts⟩
    rw [validateArguments, hrules]
    simp only [Option.or_eq_none_iff, List.findSome?_eq_none_iff, hstrict, if_true]
    refine ⟨fun rule hrule => ?_, fun rule hrule => ?_, fun arg harg => ?_⟩
    · obtain ⟨value, hmem⟩ := hpresent rule hrule
      have hfind : arguments.entries.lookup rule.argName = some value :=
        ArgumentMap.find_eq_some_iff.mpr hmem
      rw [hfind]
      exact validateArgument_eq_none.mpr
        (haccepts _ _ hmem rule (List.mem_append_left _ hrule) rfl)
    · cases hfind : arguments.entries.lookup rule.argName with
      | none => rfl
      | some value =>
          exact validateArgument_eq_none.mpr (haccepts _ _ (ArgumentMap.find_eq_some_iff.mp hfind)
            rule (List.mem_append_right _ hrule) rfl)
    · rw [if_pos]
      exact List.contains_iff_mem.mpr (List.mem_map.mpr (hknown arg.1 arg.2 harg))

/-- What validation answers after the registrations, and the message that it leaves. -/
def outcome (regexMatch : Bytes → Bytes → Except Bytes Bool)
    (registered : List ToolValidationRules) (toolName : Bytes) (arguments : ArgumentMap)
    (errorMsg : Bytes) : Bool × Bytes :=
  ((registerAll registered).validateArgumentsInto regexMatch toolName arguments).run errorMsg

variable {registered registered' : List ToolValidationRules} {toolName errorMsg : Bytes}
variable {rules rules' : ToolValidationRules} {arguments : ArgumentMap}

theorem outcome_fst (hlast : lastRules registered toolName = some rules)
    (hstrict : rules.strictMode = true) :
    (outcome regexMatch registered toolName arguments errorMsg).1 = true ↔
      rules.Complies regexMatch arguments := by
  rw [outcome, validateArgumentsInto_eq, Check.ofReport_fst]
  exact validateArguments_eq_none ((lookup_registerAll _ _).trans hlast) hstrict

theorem outcome_snd
    (hvalid : (outcome regexMatch registered toolName arguments errorMsg).1 = true) :
    (outcome regexMatch registered toolName arguments errorMsg).2 = errorMsg := by
  rw [outcome, validateArgumentsInto_eq] at hvalid ⊢
  exact Check.ofReport_snd (Check.ofReport_fst.mp hvalid)

/-- With strict rules, the ones registered last, validation lets the arguments through
exactly if they comply with the rules, in any order of these, and leaves the message as it
was. -/
theorem validates_iff_complies (hlast : lastRules registered toolName = some rules)
    (hstrict : rules.strictMode = true) (arguments : ArgumentMap) (errorMsg : Bytes) :
    ((outcome regexMatch registered toolName arguments errorMsg).1 = true ↔
        rules.Complies regexMatch arguments) ∧
      ((outcome regexMatch registered toolName arguments errorMsg).1 = true →
        (outcome regexMatch registered toolName arguments errorMsg).2 = errorMsg) ∧
      ∀ registered' rules', lastRules registered' toolName = some rules' →
        rules'.strictMode = true → rules.requiredArgs.Perm rules'.requiredArgs →
          rules.optionalArgs.Perm rules'.optionalArgs →
            (outcome regexMatch registered' toolName arguments errorMsg).1 =
              (outcome regexMatch registered toolName arguments errorMsg).1 := by
  refine ⟨outcome_fst hlast hstrict, outcome_snd, ?_⟩
  intro registered' rules' hlast' hstrict' hrequired hoptional
  rw [Bool.eq_iff_iff, outcome_fst hlast' hstrict', outcome_fst hlast hstrict]
  exact ⟨.perm hrequired.symm hoptional.symm, .perm hrequired hoptional⟩

/-- The tool `t` needs a number and takes a path, which may have a tilde. -/
def numberRules : ToolValidationRules where
  toolName := ascii "t"
  requiredArgs := [{ argName := ascii "n", pattern := ascii "[0-9]+" }]
  optionalArgs := [{ argName := ascii "path", allowPathTraversal := true }]

/-- The arguments of a call of `t`. -/
def numberArguments : ArgumentMap where
  entries := [(ascii "n", ascii "7"), (ascii "path", ascii "~/a")]
  sorted := by decide

/-- The texts that match `[0-9]+`. -/
def matchesDigits (_ value : Bytes) : Except Bytes Bool := .ok (value ≠ [] && value.all isdigit)

theorem validates_iff_complies_of_number :
    (outcome matchesDigits [pathRules, numberRules] (ascii "t") numberArguments []).1 = true ∧
      numberRules.Complies matchesDigits numberArguments := by
  have hvalid : (outcome matchesDigits [pathRules, numberRules] (ascii "t") numberArguments
      []).1 = true := by decide +kernel
  have hlast : lastRules [pathRules, numberRules] (ascii "t") = some numberRules := by decide
  exact ⟨hvalid, (validates_iff_complies hlast rfl numberArguments []).1.mp hvalid⟩

end InputValidationHandler

end McpToolkit
