import McpToolkit.Json.Reading
/-!
# Trees

A tree of members with literal keys, C strings, and raw JSON texts that may have white
space around them.  What its calls leave in the buffer decodes to the tree, and to
nothing else.
-/

namespace McpToolkit

/-- A string without NUL. -/
abbrev CText := { s : Bytes // 0 ∉ s }

/-- A JSON text: a value with white space around it. -/
structure JsonText where
  before : Ws
  value : Value
  after : Ws

def JsonText.text (t : JsonText) : Bytes := t.before.text ++ t.value.text ++ t.after.text

/-- An element of an array. -/
inductive Leaf where
  | string (value : CText)
  | raw (value : JsonText)

/-- The members of an object. -/
inductive Tree where
  | nil
  | string (key : Key) (value : CText) (rest : Tree)
  | number (key : Key) (value : Int) (rest : Tree)
  | bool (key : Key) (value : Bool) (rest : Tree)
  | raw (key : Key) (value : JsonText) (rest : Tree)
  | object (key : Key) (inner rest : Tree)
  | array (key : Key) (elements : List Leaf) (rest : Tree)

def Leaf.item : Leaf → Item
  | .string s => .string s.1
  | .raw t => .raw t.text

def Leaf.json : Leaf → Json
  | .string s => .string s.1
  | .raw t => t.value.json

namespace Tree

/-- The calls that add the members. -/
def calls : Tree → Calls
  | .nil => .nil
  | .string key s rest => .string key.1 s.1 rest.calls
  | .number key n rest => .number key.1 n rest.calls
  | .bool key b rest => .bool key.1 b rest.calls
  | .raw key t rest => .raw key.1 t.text rest.calls
  | .object key inner rest => .object key.1 inner.calls rest.calls
  | .array key elements rest => .array key.1 (elements.map Leaf.item) rest.calls

/-- What the members stand for. -/
def json : Tree → List (Bytes × Json)
  | .nil => []
  | .string key s rest => (key.1, .string s.1) :: rest.json
  | .number key n rest => (key.1, .int n) :: rest.json
  | .bool key b rest => (key.1, .bool b) :: rest.json
  | .raw key t rest => (key.1, t.value.json) :: rest.json
  | .object key inner rest => (key.1, .object inner.json) :: rest.json
  | .array key elements rest => (key.1, .array (elements.map Leaf.json)) :: rest.json

/-- The buffer after the object has been added to a builder. -/
def build (tree : Tree) (b : JsonBuilder) : Bytes :=
  (tree.calls.emit b.startObject).endObject.get

end Tree

/-! ## The parts -/

theorem JsonText.cString_text (t : JsonText) : cString t.text = t.text := by
  have hshown : Shown t.text := (t.before.shown.append t.value.shown).append t.after.shown
  exact cString_of_not_mem hshown.zero_not_mem

theorem JsonText.ended (t : JsonText) : Ended t.text := by
  rcases List.eq_nil_or_concat' t.after.text with h | ⟨w, b, h⟩
  · rw [JsonText.text, h, List.append_nil]
    exact t.value.ended.append t.before.text
  · have hb := t.after.blank b (by rw [h]; simp)
    rw [JsonText.text, h, ← List.append_assoc]
    refine .of_concat ⟨?_, ?_⟩ _ <;> rintro rfl <;> exact absurd hb (by decide)

theorem JsonText.decodes (t : JsonText) : Decodes t.text t.value.json :=
  ⟨t.before, t.after, t.value, rfl, rfl⟩

theorem unescapeFrom_plain {cs : List StrChar} (h : ∀ c ∈ cs, ∃ b hb, c = .plain b hb) :
    unescapeFrom none cs = cs.flatMap StrChar.text := by
  induction cs with
  | nil => rfl
  | cons c cs ih =>
      rw [List.forall_mem_cons] at h
      obtain ⟨⟨b, hb, rfl⟩, hcs⟩ := h
      rw [unescapeFrom, ih hcs, List.flatMap_cons]
      rfl

theorem Str.plain_chars {s : Bytes} {h : s.all isStrChar} :
    ∀ c ∈ (Str.plain s h).chars, ∃ b hb, c = .plain b hb := by
  intro c hc
  obtain ⟨b, -, rfl⟩ := List.mem_map.mp hc
  exact ⟨_, _, rfl⟩

theorem Str.plain_unescape (s : Bytes) (h : s.all isStrChar) : (Str.plain s h).unescape = s :=
  (unescapeFrom_plain Str.plain_chars).trans (Str.plain_text s h)

/-- A key and a colon in front of a text. -/
theorem Decodes.keyed {w : Bytes} {j : Json} (h : Decodes w j) (key : Key) :
    DecodesEntry .object (keyText key.1 ++ w) (key.1, j) := by
  have hmember := h.member (Str.plain key.1 key.2)
  rw [Str.plain_text, Str.plain_unescape] at hmember
  rw [keyText, cString_of_isStrChar key.2]
  exact hmember

theorem decodes_stringText (s : Bytes) : Decodes (stringText s) (.string (cString s)) := by
  have h := Decodes.of_value (.string (escaped s))
  rw [string_escaped_text, Value.json, escaped_unescape] at h
  exact h

theorem decodes_toDecimal (n : Int) : Decodes (toDecimal n) (.int n) := by
  have h := Decodes.of_value (.number (.ofInt n))
  rw [Value.text, Number.ofInt_text, Value.json, Number.json, Number.ofInt_toInt?] at h
  exact h

theorem decodes_boolText (b : Bool) : Decodes (boolText b) (.bool b) := by
  cases b with
  | true => exact .of_value (.literal .true)
  | false => exact .of_value (.literal .false)

theorem decodes_arrayText {parts : List Bytes} {js : List Json}
    (h : List.Forall₂ Decodes parts js) : Decodes (arrayText parts) (.array js) := by
  have hentries : List.Forall₂ (DecodesEntry .array) parts (js.map fun j => ([], j)) :=
    List.forall₂_map_right_iff.mpr (h.imp fun _ _ hpart => hpart.element)
  have hcontainer := Decodes.container hentries
  rw [Kind.json, List.map_map, List.map_id''] at hcontainer
  · exact hcontainer
  · exact fun _ => rfl

theorem decodes_objectText {parts : List Bytes} {ms : List (Bytes × Json)}
    (h : List.Forall₂ (DecodesEntry .object) parts ms) : Decodes (objectText parts) (.object ms) :=
  Decodes.container h

/-! ## The tree -/

theorem Leaf.decodes (e : Leaf) : Decodes e.item.text e.json := by
  cases e with
  | string s =>
      have h := decodes_stringText s.1
      rw [cString_of_not_mem s.2] at h
      exact h
  | raw t =>
      rw [Leaf.item, Item.text, t.cString_text]
      exact t.decodes

theorem Leaf.ended (e : Leaf) : e.item.Ended := by
  cases e with
  | string s => trivial
  | raw t =>
      have hended := t.ended
      rw [← t.cString_text] at hended
      exact hended

namespace Tree

theorem calls_ended (tree : Tree) : tree.calls.Ended := by
  induction tree with
  | nil => trivial
  | string key s rest ih => exact ih
  | number key n rest ih => exact ih
  | bool key b rest ih => exact ih
  | raw key t rest ih =>
      have hended := t.ended
      rw [← t.cString_text] at hended
      exact ⟨hended, ih⟩
  | object key inner rest ihinner ih => exact ⟨ihinner, ih⟩
  | array key elements rest ih =>
      refine ⟨fun i hi => ?_, ih⟩
      obtain ⟨e, -, rfl⟩ := List.mem_map.mp hi
      exact e.ended

/-- Each call adds a part that decodes to the member. -/
theorem parts_decode (tree : Tree) :
    List.Forall₂ (DecodesEntry .object) tree.calls.parts tree.json := by
  induction tree with
  | nil => exact .nil
  | string key s rest ih =>
      have hvalue := decodes_stringText s.1
      rw [cString_of_not_mem s.2] at hvalue
      exact .cons (hvalue.keyed key) ih
  | number key n rest ih => exact .cons ((decodes_toDecimal n).keyed key) ih
  | bool key b rest ih => exact .cons ((decodes_boolText b).keyed key) ih
  | raw key t rest ih =>
      have hvalue := t.decodes
      rw [← t.cString_text] at hvalue
      exact .cons (hvalue.keyed key) ih
  | object key inner rest ihinner ih => exact .cons ((decodes_objectText ihinner).keyed key) ih
  | array key elements rest ih =>
      have helements : List.Forall₂ Decodes ((elements.map Leaf.item).map Item.text)
          (elements.map Leaf.json) := by
        rw [List.map_map, List.forall₂_map_left_iff, List.forall₂_map_right_iff]
        exact List.forall₂_same.mpr fun e _ => e.decodes
      exact .cons ((decodes_arrayText helements).keyed key) ih

/-- On a builder that is fresh or was reset, the calls leave a text that decodes to the
tree and to nothing else. -/
theorem decodes_build_iff (tree : Tree) (b : JsonBuilder) (j : Json) :
    (Decodes (tree.build {}) j ↔ j = .object tree.json) ∧
      (Decodes (tree.build b.reset) j ↔ j = .object tree.json) := by
  have hbuild : ∀ b : JsonBuilder, b.buffer = [] →
      (Decodes (tree.build b) j ↔ j = .object tree.json) := by
    intro b hb
    have hdecodes : Decodes (tree.build b) (.object tree.json) := by
      rw [build, Calls.build tree.calls_ended hb]
      exact decodes_objectText tree.parts_decode
    constructor
    · exact fun h => h.unique hdecodes
    · rintro rfl
      exact hdecodes
  exact ⟨hbuild {} rfl, hbuild b.reset rfl⟩

end Tree

end McpToolkit
