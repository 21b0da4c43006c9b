import McpToolkit.Json.Builder
import Mathlib.Data.List.TakeWhile
/-!
# The calls of the builder

What well-nested calls leave in the buffer, for keys and raw texts of any octets.
Whether a comma is due is read off the last octet; an opening bracket is there
exactly when nothing has been added to its container yet.
-/

namespace McpToolkit

/-! ## Appending with commas -/

/-- Texts with commas between them. -/
def commaJoin (parts : List Bytes) : Bytes := [comma].intercalate parts

/-- The comma that `separate` appends, or nothing. -/
def commaFor (opening : UInt8) (buf : Bytes) : Bytes :=
  if buf ≠ [] ∧ buf.getLast? ≠ some opening then [comma] else []

/-- The buffer after parts have been appended one by one. -/
def appendParts (opening : UInt8) (buf : Bytes) (parts : List Bytes) : Bytes :=
  parts.foldl (fun buf part => buf ++ commaFor opening buf ++ part) buf

/-- A text behind which a comma is due. -/
def Closed (opening : UInt8) (part : Bytes) : Prop := ∃ w b, part = w ++ [b] ∧ b ≠ opening

theorem Closed.commaFor {opening : UInt8} {part : Bytes} (h : Closed opening part) (buf : Bytes) :
    commaFor opening (buf ++ part) = [comma] := by
  obtain ⟨w, b, rfl, hb⟩ := h
  rw [McpToolkit.commaFor, if_pos]
  simp [← List.append_assoc, hb]

theorem appendParts_closed {opening : UInt8} {parts : List Bytes}
    (h : ∀ part ∈ parts, Closed opening part) {buf : Bytes} (hbuf : commaFor opening buf = [comma]) :
    appendParts opening buf parts = buf ++ parts.flatMap (comma :: ·) := by
  induction parts generalizing buf with
  | nil => simp [appendParts]
  | cons part parts ih =>
      rw [List.forall_mem_cons] at h
      have hnext := ih h.2 (h.1.commaFor (buf ++ [comma]))
      rw [appendParts, List.foldl_cons, hbuf]
      rw [appendParts] at hnext
      rw [hnext]
      simp

theorem commaJoin_cons (part : Bytes) (parts : List Bytes) :
    commaJoin (part :: parts) = part ++ parts.flatMap (comma :: ·) := by
  induction parts generalizing part with
  | nil => simp [commaJoin, List.intercalate]
  | cons part' parts ih =>
      have hjoin : commaJoin (part :: part' :: parts) =
          part ++ comma :: commaJoin (part' :: parts) := by
        simp [commaJoin, List.intercalate]
      rw [hjoin, ih, List.flatMap_cons]
      rfl

/-- Behind an opening bracket the parts are joined by commas. -/
theorem appendParts_opening {opening : UInt8} {parts : List Bytes}
    (h : ∀ part ∈ parts, Closed opening part) (w : Bytes) :
    appendParts opening (w ++ [opening]) parts = w ++ [opening] ++ commaJoin parts := by
  cases parts with
  | nil => simp [appendParts, commaJoin, List.intercalate]
  | cons part parts =>
      rw [List.forall_mem_cons] at h
      have hfirst : commaFor opening (w ++ [opening]) = [] := by
        rw [commaFor, if_neg]
        simp
      have hothers := appendParts_closed h.2 (h.1.commaFor (w ++ [opening]))
      rw [appendParts, List.foldl_cons, hfirst, List.append_nil]
      rw [appendParts] at hothers
      rw [hothers, commaJoin_cons]
      simp

/-! ## Calls -/

/-- An element of an array, as the builder gets it. -/
inductive Item where
  | string (value : Bytes)
  | raw (value : Bytes)

/-- The calls that add the members of an object, as the builder gets them. -/
inductive Calls where
  | nil
  | string (key value : Bytes) (rest : Calls)
  | number (key : Bytes) (value : Int) (rest : Calls)
  | bool (key : Bytes) (value : Bool) (rest : Calls)
  | raw (key value : Bytes) (rest : Calls)
  | object (key : Bytes) (inner rest : Calls)
  | array (key : Bytes) (items : List Item) (rest : Calls)

def Item.emit (b : JsonBuilder) : Item → JsonBuilder
  | .string s => b.addArrayElement s
  | .raw w => b.addArrayElementRaw w

def Calls.emit : Calls → JsonBuilder → JsonBuilder
  | .nil, b => b
  | .string key s rest, b => rest.emit (b.addField key s)
  | .number key n rest, b => rest.emit (b.addFieldNumber key n)
  | .bool key v rest, b => rest.emit (b.addFieldBool key v)
  | .raw key w rest, b => rest.emit (b.addFieldRaw key w)
  | .object key inner rest, b => rest.emit (inner.emit (b.addObjectField key)).closeObjectField
  | .array key items rest, b =>
      rest.emit (items.foldl Item.emit (b.addArrayField key)).closeArrayField

/-! ## Texts -/

def keyText (key : Bytes) : Bytes := quote :: cString key ++ [quote, colon]

def stringText (s : Bytes) : Bytes := quote :: (cString s).flatMap escapeByte ++ [quote]

def boolText (v : Bool) : Bytes := if v then ascii "true" else ascii "false"

def arrayText (parts : List Bytes) : Bytes := lbracket :: commaJoin parts ++ [rbracket]

def objectText (parts : List Bytes) : Bytes := lbrace :: commaJoin parts ++ [rbrace]

def Item.text : Item → Bytes
  | .string s => stringText s
  | .raw w => cString w

/-- The texts of the members. -/
def Calls.parts : Calls → List Bytes
  | .nil => []
  | .string key s rest => (keyText key ++ stringText s) :: rest.parts
  | .number key n rest => (keyText key ++ toDecimal n) :: rest.parts
  | .bool key v rest => (keyText key ++ boolText v) :: rest.parts
  | .raw key w rest => (keyText key ++ cString w) :: rest.parts
  | .object key inner rest => (keyText key ++ objectText inner.parts) :: rest.parts
  | .array key items rest => (keyText key ++ arrayText (items.map Item.text)) :: rest.parts

/-! ## Commas are due behind values -/

/-- A text behind which a comma is due in an object as in an array. -/
def Ended (part : Bytes) : Prop := Closed lbrace part ∧ Closed lbracket part

theorem Ended.of_concat {b : UInt8} (hb : b ≠ lbrace ∧ b ≠ lbracket) (w : Bytes) :
    Ended (w ++ [b]) :=
  ⟨⟨w, b, rfl, hb.1⟩, ⟨w, b, rfl, hb.2⟩⟩

theorem Ended.append {part : Bytes} (h : Ended part) (w : Bytes) : Ended (w ++ part) := by
  obtain ⟨⟨w₁, b, rfl, hbrace⟩, ⟨w₂, c, heq, hbracket⟩⟩ := h
  obtain ⟨-, hlast⟩ := List.append_inj' heq rfl
  cases hlast
  rw [← List.append_assoc]
  exact .of_concat ⟨hbrace, hbracket⟩ (w ++ w₁)

theorem Ended.stringText (s : Bytes) : Ended (stringText s) :=
  .of_concat (by decide) _

theorem Ended.arrayText (parts : List Bytes) : Ended (arrayText parts) :=
  .of_concat (by decide) _

theorem Ended.objectText (parts : List Bytes) : Ended (objectText parts) :=
  .of_concat (by decide) _

theorem Ended.boolText (v : Bool) : Ended (boolText v) := by
  cases v with
  | true => exact .of_concat (by decide) (ascii "tru")
  | false => exact .of_concat (by decide) (ascii "fals")

theorem Ended.toDecimal (n : Int) : Ended (toDecimal n) := by
  have hdigits : ∀ n, Ended (decimal n) := by
    intro n
    rcases List.eq_nil_or_concat' (decimal n) with h | ⟨w, b, h⟩
    · exact absurd h (decimal_ne_nil n)
    · have hb := isdigit_decimal n b (by rw [h]; simp)
      rw [h]
      refine .of_concat ⟨?_, ?_⟩ w <;> rintro rfl <;> exact absurd hb (by decide)
  cases n with
  | ofNat n => exact hdigits n
  | negSucc n => exact (hdigits (n + 1)).append [minus]

def Item.Ended : Item → Prop
  | .string _ => True
  | .raw w => McpToolkit.Ended (cString w)

/-- All raw texts end as values do. -/
def Calls.Ended : Calls → Prop
  | .nil => True
  | .string _ _ rest => rest.Ended
  | .number _ _ rest => rest.Ended
  | .bool _ _ rest => rest.Ended
  | .raw _ w rest => McpToolkit.Ended (cString w) ∧ rest.Ended
  | .object _ inner rest => inner.Ended ∧ rest.Ended
  | .array _ items rest => (∀ i ∈ items, i.Ended) ∧ rest.Ended

theorem Item.Ended.text {i : Item} (h : i.Ended) : McpToolkit.Ended i.text := by
  cases i with
  | string s => exact .stringText s
  | raw w => exact h

theorem Calls.Ended.parts {calls : Calls} (h : calls.Ended) :
    ∀ part ∈ calls.parts, McpToolkit.Ended part := by
  induction calls with
  | nil => exact List.forall_mem_nil _
  | string key s rest ih => exact List.forall_mem_cons.mpr ⟨(Ended.stringText s).append _, ih h⟩
  | number key n rest ih => exact List.forall_mem_cons.mpr ⟨(Ended.toDecimal n).append _, ih h⟩
  | bool key v rest ih => exact List.forall_mem_cons.mpr ⟨(Ended.boolText v).append _, ih h⟩
  | raw key w rest ih => exact List.forall_mem_cons.mpr ⟨h.1.append _, ih h.2⟩
  | object key inner rest _ ih =>
      exact List.forall_mem_cons.mpr ⟨(Ended.objectText _).append _, ih h.2⟩
  | array key items rest ih =>
      exact List.forall_mem_cons.mpr ⟨(Ended.arrayText _).append _, ih h.2⟩

/-! ## No NUL -/

theorem cString_of_not_mem {s : Bytes} (h : 0 ∉ s) : cString s = s := by
  refine List.takeWhile_eq_self_iff.mpr fun b hb => ?_
  rw [decide_eq_true_eq]
  rintro rfl
  exact h hb

theorem zero_not_mem_cString (s : Bytes) : 0 ∉ cString s := by
  intro h
  exact absurd (List.mem_takeWhile_imp h) (by decide)

theorem zero_not_mem_escapeByte {b : UInt8} (hb : b ≠ 0) : 0 ∉ escapeByte b := by
  have hall : ∀ b, b ≠ 0 → 0 ∉ escapeByte b := octets_forall (by decide +kernel)
  exact hall b hb

theorem zero_not_mem_keyText (key : Bytes) : 0 ∉ keyText key := by
  simp +decide [keyText, zero_not_mem_cString]

theorem zero_not_mem_stringText (s : Bytes) : 0 ∉ stringText s := by
  have hescaped : ∀ b ∈ cString s, 0 ∉ escapeByte b := by
    intro b hb
    refine zero_not_mem_escapeByte ?_
    rintro rfl
    exact zero_not_mem_cString s hb
  simpa +decide [stringText] using hescaped

theorem zero_not_mem_toDecimal (n : Int) : 0 ∉ toDecimal n := by
  have hdigits : ∀ n, 0 ∉ decimal n := fun n h => absurd (isdigit_decimal n 0 h) (by decide)
  cases n with
  | ofNat n => exact hdigits n
  | negSucc n => simp +decide [toDecimal, hdigits]

theorem zero_not_mem_commaJoin {parts : List Bytes} (h : ∀ part ∈ parts, 0 ∉ part) :
    0 ∉ commaJoin parts := by
  cases parts with
  | nil => exact List.not_mem_nil
  | cons part parts =>
      rw [List.forall_mem_cons] at h
      rw [commaJoin_cons]
      simpa +decide [h.1] using h.2

theorem zero_not_mem_objectText {parts : List Bytes} (h : ∀ part ∈ parts, 0 ∉ part) :
    0 ∉ objectText parts := by
  simp +decide [objectText, zero_not_mem_commaJoin h]

theorem zero_not_mem_arrayText {parts : List Bytes} (h : ∀ part ∈ parts, 0 ∉ part) :
    0 ∉ arrayText parts := by
  simp +decide [arrayText, zero_not_mem_commaJoin h]

theorem Item.zero_not_mem_text (i : Item) : 0 ∉ i.text := by
  cases i with
  | string s => exact zero_not_mem_stringText s
  | raw w => exact zero_not_mem_cString w

/-- What has been built can be passed on as a C string. -/
theorem Calls.zero_not_mem_parts (calls : Calls) : ∀ part ∈ calls.parts, 0 ∉ part := by
  have hkeyed : ∀ (key : Bytes) {w : Bytes}, 0 ∉ w → 0 ∉ keyText key ++ w := by
    intro key w hw
    simp [zero_not_mem_keyText, hw]
  induction calls with
  | nil => exact List.forall_mem_nil _
  | string key s rest ih =>
      exact List.forall_mem_cons.mpr ⟨hkeyed key (zero_not_mem_stringText s), ih⟩
  | number key n rest ih =>
      exact List.forall_mem_cons.mpr ⟨hkeyed key (zero_not_mem_toDecimal n), ih⟩
  | bool key v rest ih =>
      exact List.forall_mem_cons.mpr ⟨hkeyed key (by cases v <;> decide), ih⟩
  | raw key w rest ih =>
      exact List.forall_mem_cons.mpr ⟨hkeyed key (zero_not_mem_cString w), ih⟩
  | object key inner rest ihinner ih =>
      exact List.forall_mem_cons.mpr ⟨hkeyed key (zero_not_mem_objectText ihinner), ih⟩
  | array key items rest ih =>
      have hitems : ∀ part ∈ items.map Item.text, 0 ∉ part := by
        intro part hpart
        obtain ⟨i, -, rfl⟩ := List.mem_map.mp hpart
        exact i.zero_not_mem_text
      exact List.forall_mem_cons.mpr ⟨hkeyed key (zero_not_mem_arrayText hitems), ih⟩

/-! ## The buffer -/

namespace JsonBuilder

variable (b : JsonBuilder) (key : Bytes)

theorem separate_buffer (opening : UInt8) :
    (b.separate opening).buffer = b.buffer ++ commaFor opening b.buffer := by
  unfold separate commaFor append
  split_ifs <;> simp

theorem fieldKey_buffer :
    (b.fieldKey key).buffer = b.buffer ++ commaFor lbrace b.buffer ++ keyText key := by
  simp [fieldKey, append, separate_buffer, keyText]

/-- A call that adds a member. -/
def Adds (b b' : JsonBuilder) (part : Bytes) : Prop :=
  b'.buffer = b.buffer ++ commaFor lbrace b.buffer ++ part

theorem addField_adds (s : Bytes) : b.Adds (b.addField key s) (keyText key ++ stringText s) := by
  unfold Adds addField appendEscaped
  simp [append, fieldKey_buffer, stringText]

theorem addFieldNumber_adds (n : Int) :
    b.Adds (b.addFieldNumber key n) (keyText key ++ toDecimal n) := by
  unfold Adds addFieldNumber
  simp [append, fieldKey_buffer]

theorem addFieldBool_adds (v : Bool) :
    b.Adds (b.addFieldBool key v) (keyText key ++ boolText v) := by
  unfold Adds addFieldBool
  simp [append, fieldKey_buffer, boolText]

/-- Behind an opening bracket there is no place for a field. -/
theorem addFieldRaw_adds (w : Bytes) (hb : b.buffer.getLast? ≠ some lbracket) :
    b.Adds (b.addFieldRaw key w) (keyText key ++ cString w) := by
  unfold Adds addFieldRaw
  simp [append, separate_buffer, hb, keyText]

theorem addObjectField_buffer : (b.addObjectField key).buffer =
    b.buffer ++ commaFor lbrace b.buffer ++ keyText key ++ [lbrace] := by
  rw [addObjectField, append, fieldKey_buffer]

theorem addArrayField_buffer : (b.addArrayField key).buffer =
    b.buffer ++ commaFor lbrace b.buffer ++ keyText key ++ [lbracket] := by
  rw [addArrayField, append, fieldKey_buffer]

theorem emit_item (i : Item) :
    (Item.emit b i).buffer = b.buffer ++ commaFor lbracket b.buffer ++ i.text := by
  cases i with
  | string s =>
      simp [Item.emit, addArrayElement, appendEscaped, append, separate_buffer, Item.text, stringText]
  | raw w => simp [Item.emit, addArrayElementRaw, append, separate_buffer, Item.text]

theorem emit_items (items : List Item) : (items.foldl Item.emit b).buffer =
    appendParts lbracket b.buffer (items.map Item.text) := by
  induction items generalizing b with
  | nil => rfl
  | cons i items ih =>
      rw [List.foldl_cons, ih, emit_item, List.map_cons, appendParts, appendParts, List.foldl_cons]

variable {b} {b' : JsonBuilder} {part : Bytes}

theorem Adds.getLast? (h : b.Adds b' part) (hpart : Ended part) :
    b'.buffer.getLast? ≠ some lbracket := by
  obtain ⟨w, c, rfl, hc⟩ := hpart.2
  rw [h, ← List.append_assoc, List.getLast?_concat]
  exact fun heq => hc (Option.some.inj heq)

theorem Adds.appendParts (h : b.Adds b' part) (parts : List Bytes) :
    appendParts lbrace b'.buffer parts = McpToolkit.appendParts lbrace b.buffer (part :: parts) := by
  rw [McpToolkit.appendParts, McpToolkit.appendParts, List.foldl_cons, h]

end JsonBuilder

namespace Calls

/-- The calls append the members, with a comma in front of each that needs one.  The
raw fields are why the buffer may not end with the bracket of an array. -/
theorem emit_buffer {calls : Calls} (h : calls.Ended) : ∀ b : JsonBuilder,
    b.buffer.getLast? ≠ some lbracket →
      (calls.emit b).buffer = appendParts lbrace b.buffer calls.parts := by
  induction calls with
  | nil => exact fun b _ => rfl
  | string key s rest ih =>
      intro b _
      have hadds := b.addField_adds key s
      exact (ih h _ (hadds.getLast? ((Ended.stringText s).append _))).trans (hadds.appendParts _)
  | number key n rest ih =>
      intro b _
      have hadds := b.addFieldNumber_adds key n
      exact (ih h _ (hadds.getLast? ((Ended.toDecimal n).append _))).trans (hadds.appendParts _)
  | bool key v rest ih =>
      intro b _
      have hadds := b.addFieldBool_adds key v
      exact (ih h _ (hadds.getLast? ((Ended.boolText v).append _))).trans (hadds.appendParts _)
  | raw key w rest ih =>
      intro b hb
      have hadds := b.addFieldRaw_adds key w hb
      exact (ih h.2 _ (hadds.getLast? (h.1.append _))).trans (hadds.appendParts _)
  | object key inner rest ihinner ih =>
      intro b _
      have hopen := b.addObjectField_buffer key
      have hlast : (b.addObjectField key).buffer.getLast? ≠ some lbracket := by
        rw [hopen, List.getLast?_concat]
        decide
      have hclosed : ∀ part ∈ inner.parts, Closed lbrace part :=
        fun part hpart => (h.1.parts part hpart).1
      have hadds : b.Adds (inner.emit (b.addObjectField key)).closeObjectField
          (keyText key ++ objectText inner.parts) := by
        rw [JsonBuilder.Adds, JsonBuilder.closeObjectField, JsonBuilder.append,
          ihinner h.1 _ hlast, hopen, appendParts_opening hclosed, objectText]
        simp
      exact (ih h.2 _ (hadds.getLast? ((Ended.objectText _).append _))).trans (hadds.appendParts _)
  | array key items rest ih =>
      intro b _
      have hclosed : ∀ part ∈ items.map Item.text, Closed lbracket part := by
        intro part hpart
        obtain ⟨i, hi, rfl⟩ := List.mem_map.mp hpart
        exact (h.1 i hi).text.2
      have hadds : b.Adds (items.foldl Item.emit (b.addArrayField key)).closeArrayField
          (keyText key ++ arrayText (items.map Item.text)) := by
        rw [JsonBuilder.Adds, JsonBuilder.closeArrayField, JsonBuilder.append,
          JsonBuilder.emit_items, JsonBuilder.addArrayField_buffer, appendParts_opening hclosed,
          arrayText]
        simp
      exact (ih h.2 _ (hadds.getLast? ((Ended.arrayText _).append _))).trans (hadds.appendParts _)

/-- The calls for an object on an empty builder leave the text of the object. -/
theorem build {calls : Calls} (h : calls.Ended) {b : JsonBuilder} (hb : b.buffer = []) :
    (calls.emit b.startObject).endObject.get = objectText calls.parts := by
  have hstart : b.startObject.buffer = [] ++ [lbrace] := by
    rw [JsonBuilder.startObject, JsonBuilder.append, hb]
  have hlast : b.startObject.buffer.getLast? ≠ some lbracket := by
    rw [hstart]
    decide
  rw [JsonBuilder.get, JsonBuilder.endObject, JsonBuilder.append, emit_buffer h _ hlast, hstart,
    appendParts_opening fun part hpart => (h.parts part hpart).1, objectText]
  rfl

end Calls

end McpToolkit
