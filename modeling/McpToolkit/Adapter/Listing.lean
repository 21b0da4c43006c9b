import McpToolkit.Adapter.Replies
import McpToolkit.Json.Shortest
/-!
# What the list of tools says

A list of validated tools is written faithfully if the names of the parameters need no
escape and the descriptions have no NUL.  Otherwise the reply is too short to say it.
-/

namespace McpToolkit

namespace MCPAdapter

/-! ## What it should say -/

def idJson : Option Int → Json
  | some n => .int n
  | none => .null

def propertyJson (p : ToolParam) : Bytes × Json :=
  (p.name, .object [(ascii "type", .string p.type), (ascii "description", .string p.description)])

def toolJson (t : ToolDefinition) : Json :=
  .object [(ascii "name", .string t.name), (ascii "description", .string t.description),
    (ascii "inputSchema", .object [(ascii "type", .string (ascii "object")),
      (ascii "properties", .object (t.params.map propertyJson)),
      (ascii "required", .array ((t.params.filter (·.required)).map fun p => .string p.name))])]

def listingJson (id : Option Int) (ts : List ToolDefinition) : Json :=
  .object [(ascii "jsonrpc", .string (ascii "2.0")), (ascii "id", idJson id),
    (ascii "result", .object [(ascii "tools", .array (ts.map toolJson))])]

/-- A line that decodes to a value and to nothing else. -/
def Says (line : Bytes) (j : Json) : Prop := newline ∉ line ∧ ∀ j', Decodes line j' ↔ j' = j

/-- The names of the parameters need no escape and the descriptions have no NUL. -/
def Faithful (t : ToolDefinition) : Prop :=
  0 ∉ t.description ∧ ∀ p ∈ t.params, p.name.all isStrChar ∧ 0 ∉ p.description

/-! ## What validation promises -/

theorem not_mem_of_hasLineBreak {s : Bytes} (h : hasLineBreak s = false) : 0 ∉ s := by
  unfold hasLineBreak at h
  simp only [Bool.or_eq_false_iff, List.contains_eq_mem, decide_eq_false_iff_not] at h
  exact h.2

theorem validateToolParam_ne_nil (p : ToolParam) : validateToolParam p ≠ some [] := by
  unfold validateToolParam
  split_ifs <;> decide

theorem validated_param {p : ToolParam} (h : validateToolParam p = none) :
    0 ∉ p.name ∧ 0 ∉ p.type := by
  unfold validateToolParam at h
  split_ifs at h with hempty hbreak hlong htype
  refine ⟨not_mem_of_hasLineBreak (Bool.eq_false_iff.mpr hbreak), ?_⟩
  have hkinds : ∀ kind ∈ [ascii "string", ascii "integer", ascii "boolean", ascii "number"],
      (0 : UInt8) ∉ kind := by decide
  refine hkinds p.type ?_
  by_contra hother
  simp only [List.mem_cons, List.not_mem_nil, or_false, not_or] at hother
  simp [hother] at htype

theorem validated {t : ToolDefinition} (h : validateToolDefinition t = []) :
    0 ∉ t.name ∧ ∀ p ∈ t.params, 0 ∉ p.name ∧ 0 ∉ p.type := by
  unfold validateToolDefinition at h
  split_ifs at h with hempty hbreak hlong hdescription hmany
  any_goals
    exfalso
    revert h
    decide
  refine ⟨not_mem_of_hasLineBreak (Bool.eq_false_iff.mpr hbreak), fun p hp => ?_⟩
  cases hfound : t.params.findSome? validateToolParam with
  | none => exact validated_param (List.findSome?_eq_none_iff.mp hfound p hp)
  | some error =>
      rw [hfound, Option.getD_some] at h
      obtain ⟨q, -, hq⟩ := List.exists_of_findSome?_eq_some hfound
      rw [h] at hq
      exact absurd hq (validateToolParam_ne_nil q)

theorem handleToolsList_validated {σ : Type} {server : Server σ} {s : AdapterState σ}
    (msg : MCPMessage) (h : ∀ t ∈ (server.listTools s).1, validateToolDefinition t = []) :
    (handleToolsList server s msg).2 =
      [.handleToolsList, .listTools, toolsReply msg.id (server.listTools s).1] := by
  have hnone : ((server.listTools s).1.findSome? fun t =>
      if (validateToolDefinition t).isEmpty then none else some (validateToolDefinition t)) = none := by
    refine List.findSome?_eq_none_iff.mpr fun t ht => ?_
    rw [h t ht]
    rfl
  unfold handleToolsList
  dsimp only
  rw [hnone]

/-! ## Faithful tools are said -/

theorem decodes_stringText_of {s : Bytes} (h : 0 ∉ s) : Decodes (stringText s) (.string s) := by
  have hs := decodes_stringText s
  rw [cString_of_not_mem h] at hs
  exact hs

theorem decodes_properties {ps : List ToolParam}
    (h : ∀ p ∈ ps, p.name.all isStrChar ∧ 0 ∉ p.type ∧ 0 ∉ p.description) :
    List.Forall₂ (DecodesEntry .object) (propertyCalls ps).parts (ps.map propertyJson) := by
  induction ps with
  | nil => exact .nil
  | cons p ps ih =>
      rw [List.forall_mem_cons] at h
      obtain ⟨⟨hname, htype, hdescription⟩, hps⟩ := h
      have hfields := decodes_objectText
        (.cons ((decodes_stringText_of htype).keyed ⟨ascii "type", by decide⟩)
          (.cons ((decodes_stringText_of hdescription).keyed ⟨ascii "description", by decide⟩) .nil))
      exact .cons (hfields.keyed ⟨p.name, hname⟩) (ih hps)

theorem decodes_required {ps : List ToolParam} (h : ∀ p ∈ ps, 0 ∉ p.name) :
    List.Forall₂ Decodes ((requiredItems ps).map Item.text)
      ((ps.filter (·.required)).map fun p => .string p.name) := by
  rw [requiredItems, List.map_map, List.forall₂_map_left_iff, List.forall₂_map_right_iff]
  exact List.forall₂_same.mpr fun p hp => decodes_stringText_of (h p (List.mem_of_mem_filter hp))

theorem decodes_toolDescriptor {t : ToolDefinition} (hvalid : validateToolDefinition t = [])
    (h : Faithful t) : Decodes (toolDescriptor t) (toolJson t) := by
  obtain ⟨hname, hparams⟩ := validated hvalid
  have hproperties := decodes_objectText (decodes_properties fun p hp =>
    ⟨(h.2 p hp).1, (hparams p hp).2, (h.2 p hp).2⟩)
  have hrequired := decodes_arrayText (decodes_required fun p hp => (hparams p hp).1)
  have hobject : Decodes (stringText (ascii "object")) (.string (ascii "object")) :=
    decodes_stringText_of (by decide)
  have hschema := decodes_objectText (.cons (hobject.keyed ⟨ascii "type", by decide⟩)
    (.cons (hproperties.keyed ⟨ascii "properties", by decide⟩)
      (.cons (hrequired.keyed ⟨ascii "required", by decide⟩) .nil)))
  rw [toolDescriptor_text]
  exact decodes_objectText
    (.cons ((decodes_stringText_of hname).keyed ⟨ascii "name", by decide⟩)
      (.cons ((decodes_stringText_of h.1).keyed ⟨ascii "description", by decide⟩)
        (.cons (hschema.keyed ⟨ascii "inputSchema", by decide⟩) .nil)))

theorem decodes_listing (id : Option Int) {ts : List ToolDefinition}
    (hvalid : ∀ t ∈ ts, validateToolDefinition t = []) (h : ∀ t ∈ ts, Faithful t) :
    Decodes (objectText (listingCalls id ts).parts) (listingJson id ts) := by
  have htools : List.Forall₂ Decodes ((ts.map fun t => Item.raw (toolDescriptor t)).map Item.text)
      (ts.map toolJson) := by
    rw [List.map_map, List.forall₂_map_left_iff, List.forall₂_map_right_iff]
    refine List.forall₂_same.mpr fun t ht => ?_
    change Decodes (cString (toolDescriptor t)) (toolJson t)
    rw [cString_toolDescriptor]
    exact decodes_toolDescriptor (hvalid t ht) (h t ht)
  have hresult := decodes_objectText
    (.cons ((decodes_arrayText htools).keyed ⟨ascii "tools", by decide⟩) .nil)
  have hversion : Decodes (stringText (ascii "2.0")) (.string (ascii "2.0")) :=
    decodes_stringText_of (by decide)
  cases id with
  | none =>
      have hnull : Decodes (cString (ascii "null")) .null := .of_value (.literal .null)
      exact decodes_objectText (.cons (hversion.keyed ⟨ascii "jsonrpc", by decide⟩)
        (.cons (hnull.keyed ⟨ascii "id", by decide⟩)
          (.cons (hresult.keyed ⟨ascii "result", by decide⟩) .nil)))
  | some n =>
      exact decodes_objectText (.cons (hversion.keyed ⟨ascii "jsonrpc", by decide⟩)
        (.cons ((decodes_toDecimal n).keyed ⟨ascii "id", by decide⟩)
          (.cons (hresult.keyed ⟨ascii "result", by decide⟩) .nil)))

/-! ## Other replies are too short -/

theorem fits_properties (ps : List ToolParam) : ∃ P,
    FitsAll P (propertyCalls ps).parts (Json.memberTexts (ps.map propertyJson)) ∧
      (P → ∀ p ∈ ps, p.name.all isStrChar ∧ 0 ∉ p.description) := by
  induction ps with
  | nil => exact ⟨True, .nil, fun _ => List.forall_mem_nil _⟩
  | cons p ps ih =>
      obtain ⟨P, hps, hP⟩ := ih
      have hfields := (FitsAll.cons ((fits_stringText p.type).member (ascii "type"))
        (.cons ((fits_stringText p.description).member (ascii "description")) .nil)).objectText
      refine ⟨_, .cons (hfields.member p.name) hps, fun hall => ?_⟩
      obtain ⟨⟨hname, -, ⟨-, hdescription⟩, -⟩, hrest⟩ := hall
      exact List.forall_mem_cons.mpr ⟨⟨hname, hdescription⟩, hP hrest⟩

theorem fits_required (ps : List ToolParam) : Fits True
    (arrayText ((requiredItems ps).map Item.text))
    (arrayText (Json.texts ((ps.filter (·.required)).map fun p => .string p.name))) := by
  rw [requiredItems, Json.texts_eq, List.map_map, List.map_map]
  obtain ⟨P, hfits, -⟩ := FitsAll.map (fun p : ToolParam => fits_stringText p.name)
    (ps.filter (·.required))
  exact hfits.arrayText.imp fun _ => trivial

theorem fits_toolDescriptor (t : ToolDefinition) :
    Fits (Faithful t) (cString (toolDescriptor t)) (toolJson t).text := by
  obtain ⟨P, hproperties, hP⟩ := fits_properties t.params
  have hobject : Fits True (stringText (ascii "object")) (Json.string (ascii "object")).text :=
    (fits_stringText (ascii "object")).imp fun _ => trivial
  have hschema := (FitsAll.cons (hobject.member (ascii "type"))
    (.cons (hproperties.objectText.member (ascii "properties"))
      (.cons ((fits_required t.params).member (ascii "required")) .nil))).objectText
  have htool := (FitsAll.cons ((fits_stringText t.name).member (ascii "name"))
    (.cons ((fits_stringText t.description).member (ascii "description"))
      (.cons (hschema.member (ascii "inputSchema")) .nil))).objectText
  rw [cString_toolDescriptor, toolDescriptor_text]
  refine htool.imp fun hall => ?_
  obtain ⟨-, ⟨-, hdescription⟩, ⟨-, -, ⟨-, hproperties⟩, -⟩, -⟩ := hall
  exact ⟨hdescription, hP hproperties⟩

theorem fits_listing (id : Option Int) (ts : List ToolDefinition) :
    Fits (∀ t ∈ ts, Faithful t) (objectText (listingCalls id ts).parts) (listingJson id ts).text := by
  obtain ⟨P, htools, hP⟩ := FitsAll.map fits_toolDescriptor ts
  have hitems : (ts.map fun t => Item.raw (toolDescriptor t)).map Item.text =
      ts.map fun t => cString (toolDescriptor t) := List.map_map
  have htexts : Json.texts (ts.map toolJson) = ts.map fun t => (toolJson t).text := by
    rw [Json.texts_eq, List.map_map]
    rfl
  rw [← hitems, ← htexts] at htools
  have hresult := (FitsAll.cons (htools.arrayText.member (ascii "tools")) .nil).objectText
  have hversion : Fits True (stringText (ascii "2.0")) (Json.string (ascii "2.0")).text :=
    (fits_stringText (ascii "2.0")).imp fun _ => trivial
  have hreply : ∀ {w : Bytes}, Fits True w (idJson id).text →
      Fits (∀ t ∈ ts, Faithful t)
        (objectText [keyText (ascii "jsonrpc") ++ stringText (ascii "2.0"),
          keyText (ascii "id") ++ w,
          keyText (ascii "result") ++ objectText [keyText (ascii "tools") ++
            arrayText ((ts.map fun t => Item.raw (toolDescriptor t)).map Item.text)]])
        (listingJson id ts).text := by
    intro w hid
    refine (FitsAll.cons (hversion.member (ascii "jsonrpc")) (.cons (hid.member (ascii "id"))
      (.cons (hresult.member (ascii "result")) .nil))).objectText.imp fun hall => ?_
    obtain ⟨-, -, ⟨-, ⟨-, htools⟩, -⟩, -⟩ := hall
    exact hP htools
  cases id with
  | none => exact hreply (.refl _)
  | some n => exact hreply (.refl _)

theorem listing_oneLine (id : Option Int) {ts : List ToolDefinition}
    (h : ∀ t ∈ ts, Faithful t) : newline ∉ objectText (listingCalls id ts).parts := by
  have hplain : ∀ t ∈ ts, PlainNames t := fun t ht p hp => ((h t ht).2 p hp).1
  have heq := (toolsReply_text id ts).symm.trans (toolsReply_eq id ts hplain)
  have hprintable := (resultReply_isReply id (toolsFields_oneLine ts hplain)).oneLine
  rw [← List.append_cancel_right (Event.output.inj heq)] at hprintable
  exact fun hnewline => absurd (hprintable newline hnewline) (by decide)

/-- The reply says what the tools are exactly if they can be said. -/
theorem says_listing_iff (id : Option Int) {ts : List ToolDefinition}
    (hvalid : ∀ t ∈ ts, validateToolDefinition t = []) :
    Says (objectText (listingCalls id ts).parts) (listingJson id ts) ↔ ∀ t ∈ ts, Faithful t := by
  constructor
  · rintro ⟨-, hdecodes⟩
    exact (fits_listing id ts).2 ((hdecodes _).mpr rfl).length_le
  · intro hfaithful
    have hdecodes := decodes_listing id hvalid hfaithful
    refine ⟨listing_oneLine id hfaithful, fun j => ⟨fun h => h.unique hdecodes, ?_⟩⟩
    rintro rfl
    exact hdecodes

end MCPAdapter

open MCPAdapter

/-- A list of validated tools is answered by one line that says what they are exactly if the
names of the parameters need no escape and the descriptions have no NUL. -/
theorem tools_said_iff {σ : Type} {server : Server σ} {s : AdapterState σ} (msg : MCPMessage)
    (hvalid : ∀ t ∈ (server.listTools s).1, validateToolDefinition t = []) :
    (∃ line, (handleToolsList server s msg).2 =
        [.handleToolsList, .listTools, .output (line ++ [newline])] ∧
          Says line (listingJson msg.id (server.listTools s).1)) ↔
      ∀ t ∈ (server.listTools s).1, Faithful t := by
  rw [← says_listing_iff msg.id hvalid, handleToolsList_validated msg hvalid, toolsReply_text]
  constructor
  · rintro ⟨line, hevents, hsays⟩
    simp only [List.cons.injEq, Event.output.injEq, and_true, true_and] at hevents
    rw [List.append_cancel_right hevents]
    exact hsays
  · exact fun hsays => ⟨_, rfl, hsays⟩

/-- A server with these tools. -/
def listing (ts : List ToolDefinition) : Server Unit :=
  { Server.base Unit with
    listTools := fun s => (ts, s)
    listTools_reaches := AdapterState.reaches_self }

/-- A tool with one parameter of this name. -/
def toolWith (name : Bytes) : ToolDefinition :=
  ⟨ascii "grep", ascii "Finds lines.", [⟨name, ascii "string", [], true⟩]⟩

theorem tools_said_iff_of_pattern :
    ∃ line, (handleToolsList (listing [toolWith (ascii "pattern")]) ⟨{}, ()⟩ {}).2 =
      [.handleToolsList, .listTools, .output (line ++ [newline])] ∧
        Says line (listingJson none [toolWith (ascii "pattern")]) := by
  have hvalid : ∀ t ∈ ((listing [toolWith (ascii "pattern")]).listTools ⟨{}, ()⟩).1,
      validateToolDefinition t = [] := by decide +kernel
  refine (tools_said_iff {} hvalid).mpr fun t ht => ?_
  rw [List.mem_singleton.mp ht]
  unfold Faithful
  decide +kernel

/-- The name of a parameter closes its key and adds another property. -/
def quotedTool : ToolDefinition := toolWith (ascii "x\":{},\"y")

theorem quoted_unsaid :
    (∀ t ∈ ((listing [quotedTool]).listTools ⟨{}, ()⟩).1, validateToolDefinition t = []) ∧
      ¬ ∃ line, (handleToolsList (listing [quotedTool]) ⟨{}, ()⟩ {}).2 =
        [.handleToolsList, .listTools, .output (line ++ [newline])] ∧
          Says line (listingJson none [quotedTool]) := by
  have hvalid : ∀ t ∈ [quotedTool], validateToolDefinition t = [] := by decide +kernel
  refine ⟨hvalid, ?_⟩
  rintro ⟨line, hevents, hsays⟩
  rw [handleToolsList_validated {} hvalid, toolsReply_text] at hevents
  simp only [List.cons.injEq, Event.output.injEq, and_true, true_and] at hevents
  rw [← List.append_cancel_right hevents] at hsays
  have hfaithful := (says_listing_iff none hvalid).mp hsays quotedTool (by simp)
  unfold Faithful at hfaithful
  revert hfaithful
  decide +kernel

end McpToolkit
