import McpToolkit.Json.Calls
import McpToolkit.Json.Complete
/-!
# What the builder builds

A document is a tree of the things that the builder can be told to add.  Issuing
its calls appends the text of a JSON value: the members are the fields of the
document, in their order, and every comma is where it belongs.
-/

namespace McpToolkit

/-! ## Scalars -/

theorem digitValue_digitChar {d : Nat} (hd : d < 10) :
    digitValue (Nat.digitChar d).toUInt8 = d := by
  rw [digitValue, toUInt8_digitChar hd, Nat.add_sub_cancel_left]

theorem natFrom_decimal (n : Nat) : natFrom 0 (decimal n) = n := by
  induction n using Nat.strong_induction_on with
  | _ n ih =>
      by_cases h : n < 10
      · rw [decimal_of_lt h, natFrom_cons, digitValue_digitChar h, Nat.zero_mul, Nat.zero_add]
        rfl
      · have hlt := Nat.mod_lt n (show 0 < 10 by decide)
        rw [decimal_of_le (by omega), natFrom_concat, ih (n / 10) (by omega),
          digitValue_digitChar hlt]
        omega

def Digits.ofNat (n : Nat) : Digits := ⟨decimal n, decimal_ne_nil n, isdigit_decimal n⟩

/-- The literal of an integer. -/
def Number.ofInt : Int → Number
  | .ofNat n => ⟨false, .ofNat n, decimal_shape n, none, none⟩
  | .negSucc n => ⟨true, .ofNat (n + 1), decimal_shape (n + 1), none, none⟩

theorem Number.ofInt_text (n : Int) : (Number.ofInt n).text = toDecimal n := by
  cases n <;> simp [Number.ofInt, Number.text, Number.fracText, Number.expText, Digits.ofNat,
    toDecimal]

theorem Number.ofInt_toInt? (n : Int) : (Number.ofInt n).toInt? = some n := by
  cases n with
  | ofNat n => simp [Number.ofInt, Number.toInt?, Digits.ofNat, natFrom_decimal]
  | negSucc n =>
      simp only [Number.ofInt, Number.toInt?, Digits.ofNat, natFrom_decimal, Option.isNone_none,
        and_self, if_true, Option.some.injEq]
      omega

theorem isHex_hexDigit {n : UInt8} (h : n < 16) : isHex (hexDigit n) := by
  have hn : n.toNat < 16 := UInt8.lt_iff_toNat_lt.mp h
  unfold hexDigit
  split_ifs with h10
  · have h10' : n.toNat < 10 := UInt8.lt_iff_toNat_lt.mp h10
    simp [isHex, isdigit, UInt8.le_iff_toNat_le]
    omega
  · have h10' : ¬ n.toNat < 10 := fun hlt => h10 (UInt8.lt_iff_toNat_lt.mpr hlt)
    simp [isHex, isdigit, UInt8.le_iff_toNat_le]
    omega

theorem div_sixteen_lt (b : UInt8) : b / 16 < 16 := by
  have hb := b.toNat_lt
  rw [UInt8.lt_iff_toNat_lt, UInt8.toNat_div]
  simp
  omega

theorem mod_sixteen_lt (b : UInt8) : b % 16 < 16 := by
  rw [UInt8.lt_iff_toNat_lt, UInt8.toNat_mod]
  simp
  omega

/-- One octet of a string, escaped if need be. -/
def escapeChar (b : UInt8) : StrChar :=
  if h : isStrChar b then .plain b (of_isStrChar h)
  else if b = quote then .escape quote (by decide)
  else if b = backslash then .escape backslash (by decide)
  else if b = 8 then .escape 0x62 (by decide)
  else if b = 12 then .escape 0x66 (by decide)
  else if b = newline then .escape 0x6E (by decide)
  else if b = 13 then .escape 0x72 (by decide)
  else if b = 9 then .escape 0x74 (by decide)
  else .unicode 0x30 0x30 (hexDigit (b / 16)) (hexDigit (b % 16)) (by
    simp only [List.forall_mem_cons]
    exact ⟨rfl, rfl, isHex_hexDigit (div_sixteen_lt b), isHex_hexDigit (mod_sixteen_lt b),
      List.forall_mem_nil _⟩)

theorem escapeChar_text (b : UInt8) : (escapeChar b).text = escapeByte b := by
  unfold escapeChar escapeByte
  by_cases h : isStrChar b
  · obtain ⟨hlow, hq, hb⟩ := of_isStrChar h
    have hne : ∀ c < 0x20, b ≠ c := by
      rintro c hc rfl
      exact absurd (UInt8.lt_of_lt_of_le hc hlow) (UInt8.lt_irrefl b)
    rw [dif_pos h, if_neg hq, if_neg hb, if_neg (hne 8 (by decide)), if_neg (hne 12 (by decide)),
      if_neg (hne newline (by decide)), if_neg (hne 13 (by decide)), if_neg (hne 9 (by decide)),
      if_neg (UInt8.not_lt.mpr hlow)]
    rfl
  · rw [dif_neg h]
    split_ifs with hq hb h8 h12 hn h13 h9 hlow
    any_goals rfl
    exfalso
    apply h
    simp [isStrChar, hq, hb, UInt8.not_lt.mp hlow]

/-- The content of a C string as a string of JSON. -/
def escaped (s : Bytes) : Str := ⟨(cString s).map escapeChar⟩

theorem escaped_text (s : Bytes) : (escaped s).text = (cString s).flatMap escapeByte := by
  rw [escaped, Str.text, List.flatMap_map]
  congr 1
  funext b
  exact escapeChar_text b

/-! ## Containers without white space -/

def entriesOf {k : Kind} : Label k × Value → List (Label k × Value) → Entries k
  | e, [] => .last .none e.1 e.2 .none
  | e, e' :: es => .more .none e.1 e.2 .none (entriesOf e' es)

/-- The container with these entries. -/
def containerOf (k : Kind) : List (Label k × Value) → Value
  | [] => .empty k .none
  | e :: es => .container k (entriesOf e es)

def entryText {k : Kind} (e : Label k × Value) : Bytes := e.1.text ++ e.2.text

theorem entriesOf_text {k : Kind} (e : Label k × Value) (es : List (Label k × Value)) :
    (entriesOf e es).text = commaJoin ((e :: es).map entryText) := by
  induction es generalizing e with
  | nil => simp [entriesOf, Entries.text, Ws.none, commaJoin, entryText, List.intercalate]
  | cons e' es ih =>
      rw [entriesOf, Entries.text, ih]
      simp [Ws.none, commaJoin, entryText, List.intercalate]

theorem containerOf_text (k : Kind) (es : List (Label k × Value)) :
    (containerOf k es).text = k.opening :: commaJoin (es.map entryText) ++ [k.closing] := by
  cases es with
  | nil => rfl
  | cons e es => rw [containerOf, Value.text, entriesOf_text]

/-! ## Documents -/

/-- A key that needs no escape. -/
abbrev Key := { key : Bytes // key.all isStrChar }

def Key.label (key : Key) : Label .object := .key (.plain key.1 key.2) .none .none

/-- An element of an array. -/
inductive Element where
  | string (value : Bytes)
  | raw (value : Value)

/-- The fields of an object, in order. -/
inductive Fields where
  | nil
  | string (key : Key) (value : Bytes) (rest : Fields)
  | number (key : Key) (value : Int) (rest : Fields)
  | bool (key : Key) (value : Bool) (rest : Fields)
  | raw (key : Key) (value : Value) (rest : Fields)
  | object (key : Key) (inner rest : Fields)
  | array (key : Key) (elements : List Element) (rest : Fields)

namespace Element

def value : Element → Value
  | .string s => .string (escaped s)
  | .raw v => v

/-- The call that adds the element. -/
def emit (b : JsonBuilder) : Element → JsonBuilder
  | .string s => b.addArrayElement s
  | .raw v => b.addArrayElementRaw v.text

end Element

def arrayOf (elements : List Element) : Value :=
  containerOf .array (elements.map fun e => (.element, e.value))

def objectOf (members : List (Key × Value)) : Value :=
  containerOf .object (members.map fun m => (m.1.label, m.2))

namespace Fields

/-- The members of the object with these fields. -/
def members : Fields → List (Key × Value)
  | .nil => []
  | .string key s rest => (key, .string (escaped s)) :: rest.members
  | .number key n rest => (key, .number (.ofInt n)) :: rest.members
  | .bool key b rest => (key, .literal (if b then .true else .false)) :: rest.members
  | .raw key v rest => (key, v) :: rest.members
  | .object key inner rest => (key, objectOf inner.members) :: rest.members
  | .array key elements rest => (key, arrayOf elements) :: rest.members

/-- The object with these fields. -/
def value (fs : Fields) : Value := objectOf fs.members

/-- The calls that add the fields. -/
def emit : Fields → JsonBuilder → JsonBuilder
  | .nil, b => b
  | .string key s rest, b => rest.emit (b.addField key.1 s)
  | .number key n rest, b => rest.emit (b.addFieldNumber key.1 n)
  | .bool key v rest, b => rest.emit (b.addFieldBool key.1 v)
  | .raw key v rest, b => rest.emit (b.addFieldRaw key.1 v.text)
  | .object key inner rest, b => rest.emit (inner.emit (b.addObjectField key.1)).closeObjectField
  | .array key elements rest, b =>
      rest.emit (elements.foldl Element.emit (b.addArrayField key.1)).closeArrayField

end Fields

/-! ## The text of a document -/

theorem cString_of_isStrChar {s : Bytes} (h : s.all isStrChar) : cString s = s :=
  cString_of_not_mem fun hzero => absurd (List.all_eq_true.mp h 0 hzero) (by decide)

/-- The printable octets, and those from 0x80 on. -/
def Printable (l : Bytes) : Prop := ∀ b ∈ l, 0x20 ≤ b

theorem Printable.append {l l' : Bytes} (h : Printable l) (h' : Printable l') :
    Printable (l ++ l') :=
  List.forall_mem_append.mpr ⟨h, h'⟩

theorem Printable.cons {b : UInt8} {l : Bytes} (hb : 0x20 ≤ b) (h : Printable l) :
    Printable (b :: l) :=
  List.forall_mem_cons.mpr ⟨hb, h⟩

theorem Printable.nil : Printable [] := List.forall_mem_nil _

theorem le_of_isHex {b : UInt8} (h : isHex b) : 0x20 ≤ b := by
  simp only [isHex, isdigit, Bool.or_eq_true, Bool.and_eq_true, decide_eq_true_eq] at h
  rcases h with (h | h) | h
  · exact UInt8.le_trans (by decide) h.1
  · exact UInt8.le_trans (by decide) h.1
  · exact UInt8.le_trans (by decide) h.1

theorem StrChar.printable (c : StrChar) : Printable c.text := by
  cases c with
  | plain b h => exact .cons h.1 .nil
  | escape e h =>
      have hall : escapes.all fun e => 0x20 ≤ e := by decide
      exact .cons (by decide) (.cons (of_decide_eq_true (List.all_eq_true.mp hall e h)) .nil)
  | unicode a b c d h =>
      exact .cons (by decide) (.cons (by decide) fun x hx => le_of_isHex (h x hx))

theorem Str.printable (s : Str) : Printable s.text := by
  intro b hb
  obtain ⟨c, -, hc⟩ := List.mem_flatMap.mp hb
  exact c.printable b hc

theorem Literal.printable (l : Literal) : Printable l.text := by
  unfold Printable
  cases l <;> decide +kernel

theorem Number.printable (n : Number) : Printable n.text := by
  intro b hb
  have h := n.chars b hb
  simp only [isNumberChar, isdigit, Bool.or_eq_true, Bool.and_eq_true, decide_eq_true_eq] at h
  rcases h with ((((h | rfl) | rfl) | rfl) | rfl) | rfl
  · exact UInt8.le_trans (by decide) h.1
  all_goals decide

/-- Printable or white space. -/
def Shown (l : Bytes) : Prop := ∀ b ∈ l, 0x20 ≤ b ∨ isBlank b

theorem Printable.shown {l : Bytes} (h : Printable l) : Shown l := fun b hb => .inl (h b hb)

theorem Ws.shown (w : Ws) : Shown w.text := fun b hb => .inr (w.blank b hb)

theorem Shown.zero_not_mem {l : Bytes} (h : Shown l) : 0 ∉ l := by
  intro hzero
  rcases h 0 hzero with h | h <;> exact absurd h (by decide)

theorem Shown.append {l l' : Bytes} (h : Shown l) (h' : Shown l') : Shown (l ++ l') :=
  List.forall_mem_append.mpr ⟨h, h'⟩

theorem Shown.cons {b : UInt8} {l : Bytes} (hb : 0x20 ≤ b) (h : Shown l) : Shown (b :: l) :=
  List.forall_mem_cons.mpr ⟨.inl hb, h⟩

theorem Kind.opening_printable (k : Kind) : 0x20 ≤ k.opening := by
  cases k <;> decide

theorem Kind.closing_printable (k : Kind) : 0x20 ≤ k.closing := by
  cases k <;> decide

theorem Label.shown {k : Kind} (l : Label k) : Shown l.text := by
  cases l with
  | element => exact List.forall_mem_nil _
  | key s w w' =>
      have hcolon := Shown.cons (show 0x20 ≤ colon by decide) w'.shown
      have hname := Shown.cons (show 0x20 ≤ quote by decide) s.printable.shown
      have hall := hname.append (.cons (show 0x20 ≤ quote by decide) (w.shown.append hcolon))
      simpa [Label.text] using hall

mutual

theorem Value.shown : ∀ v : Value, Shown v.text
  | .literal l => l.printable.shown
  | .number n => n.printable.shown
  | .string s => (Shown.cons (by decide) s.printable.shown).append
      (.cons (by decide) Printable.nil.shown)
  | .empty k w => (Shown.cons k.opening_printable w.shown).append
      (.cons k.closing_printable Printable.nil.shown)
  | .container k es => (Shown.cons k.opening_printable (Entries.shown es)).append
      (.cons k.closing_printable Printable.nil.shown)

theorem Entries.shown : ∀ {k : Kind} (es : Entries k), Shown es.text
  | _, .last w l v w' => ((w.shown.append l.shown).append (Value.shown v)).append w'.shown
  | _, .more w l v w' es => (((w.shown.append l.shown).append (Value.shown v)).append
      w'.shown).append (.cons (by decide) (Entries.shown es))

end

/-- No octet of a JSON text is NUL. -/
theorem cString_value (v : Value) : cString v.text = v.text :=
  cString_of_not_mem v.shown.zero_not_mem

theorem Value.closed (v : Value) (k : Kind) : Closed k.opening v.text := by
  have hlast : ∀ {b : UInt8} (w : Bytes), b ≠ k.opening → Closed k.opening (w ++ [b]) :=
    fun w hb => ⟨w, _, rfl, hb⟩
  cases v with
  | literal l =>
      cases l with
      | true => exact hlast (ascii "tru") (by cases k <;> decide)
      | false => exact hlast (ascii "fals") (by cases k <;> decide)
      | null => exact hlast (ascii "nul") (by cases k <;> decide)
  | number n =>
      rcases List.eq_nil_or_concat' n.text with h | ⟨w, b, h⟩
      · exact absurd h (Value.number n).text_ne_nil
      · have hb := n.plain b (by rw [h]; simp)
        rw [Value.text, h]
        exact hlast w (hb.ne_opening k)
  | string s => exact hlast (quote :: s.text) k.opening_ne_quote.symm
  | empty j w => exact hlast (j.opening :: w.text) (j.closing_ne_opening k)
  | container j es => exact hlast (j.opening :: es.text) (j.closing_ne_opening k)

/-- A member as it stands in a document. -/
def memberText (m : Key × Value) : Bytes := m.1.label.text ++ m.2.text

theorem objectOf_text (ms : List (Key × Value)) :
    (objectOf ms).text = objectText (ms.map memberText) := by
  rw [objectOf, containerOf_text, List.map_map]
  rfl

theorem arrayOf_text (es : List Element) :
    (arrayOf es).text = arrayText (es.map fun e => e.value.text) := by
  rw [arrayOf, containerOf_text, List.map_map]
  rfl

theorem Value.ended (v : Value) : Ended v.text := ⟨v.closed .object, v.closed .array⟩

theorem string_escaped_text (s : Bytes) : (Value.string (escaped s)).text = stringText s := by
  rw [Value.text, escaped_text, stringText]

theorem Key.label_text (key : Key) : key.label.text = keyText key.1 := by
  simp [Key.label, Label.text, Ws.none, keyText, cString_of_isStrChar key.2]

/-! ## Its calls -/

def Element.item : Element → Item
  | .string s => .string s
  | .raw v => .raw v.text

theorem Element.item_emit (b : JsonBuilder) (e : Element) : e.item.emit b = e.emit b := by
  cases e <;> rfl

theorem Element.item_text (e : Element) : e.item.text = e.value.text := by
  cases e with
  | string s => exact (string_escaped_text s).symm
  | raw v => exact cString_value v

theorem Element.item_ended (e : Element) : e.item.Ended := by
  cases e with
  | string s => trivial
  | raw v =>
      have hended := v.ended
      rw [← cString_value v] at hended
      exact hended

namespace Fields

/-- The calls as the builder gets them. -/
def calls : Fields → Calls
  | .nil => .nil
  | .string key s rest => .string key.1 s rest.calls
  | .number key n rest => .number key.1 n rest.calls
  | .bool key v rest => .bool key.1 v rest.calls
  | .raw key v rest => .raw key.1 v.text rest.calls
  | .object key inner rest => .object key.1 inner.calls rest.calls
  | .array key elements rest => .array key.1 (elements.map Element.item) rest.calls

theorem calls_emit (fs : Fields) : ∀ b : JsonBuilder, fs.calls.emit b = fs.emit b := by
  induction fs with
  | nil => exact fun b => rfl
  | string key s rest ih => exact fun b => ih _
  | number key n rest ih => exact fun b => ih _
  | bool key v rest ih => exact fun b => ih _
  | raw key v rest ih => exact fun b => ih _
  | object key inner rest ihinner ih =>
      intro b
      rw [calls, Calls.emit, emit, ih, ihinner]
  | array key elements rest ih =>
      intro b
      rw [calls, Calls.emit, emit, ih, List.foldl_map]
      simp only [Element.item_emit]

theorem calls_ended (fs : Fields) : fs.calls.Ended := by
  induction fs with
  | nil => trivial
  | string key s rest ih => exact ih
  | number key n rest ih => exact ih
  | bool key v rest ih => exact ih
  | raw key v rest ih =>
      have hended := v.ended
      rw [← cString_value v] at hended
      exact ⟨hended, ih⟩
  | object key inner rest ihinner ih => exact ⟨ihinner, ih⟩
  | array key elements rest ih =>
      refine ⟨fun i hi => ?_, ih⟩
      obtain ⟨e, -, rfl⟩ := List.mem_map.mp hi
      exact e.item_ended

theorem calls_parts (fs : Fields) : fs.calls.parts = fs.members.map memberText := by
  induction fs with
  | nil => rfl
  | string key s rest ih =>
      simp only [calls, Calls.parts, members, List.map_cons, memberText, ih, key.label_text,
        string_escaped_text]
  | number key n rest ih =>
      simp only [calls, Calls.parts, members, List.map_cons, memberText, ih, key.label_text,
        Value.text, Number.ofInt_text]
  | bool key v rest ih =>
      simp only [calls, Calls.parts, members, List.map_cons, memberText, ih, key.label_text]
      cases v <;> rfl
  | raw key v rest ih =>
      simp only [calls, Calls.parts, members, List.map_cons, memberText, ih, key.label_text,
        cString_value]
  | object key inner rest ihinner ih =>
      simp only [calls, Calls.parts, members, List.map_cons, memberText, ih, key.label_text,
        objectOf_text, ihinner]
  | array key elements rest ih =>
      simp only [calls, Calls.parts, members, List.map_cons, memberText, ih, key.label_text,
        arrayOf_text, List.map_map]
      simp only [Function.comp_def, Element.item_text]

theorem calls_text (fs : Fields) : objectText fs.calls.parts = fs.value.text := by
  rw [calls_parts, value, objectOf_text]

/-- The calls for an object on a fresh builder build the text of the object. -/
theorem build (fs : Fields) :
    (fs.emit (JsonBuilder.startObject {})).endObject.get = fs.value.text := by
  have hempty : ({} : JsonBuilder).buffer = [] := rfl
  rw [← calls_emit, Calls.build fs.calls_ended hempty, calls_text]

end Fields

/-! ## One line -/

theorem commaJoin_printable {parts : List Bytes} (h : ∀ part ∈ parts, Printable part) :
    Printable (commaJoin parts) := by
  cases parts with
  | nil => exact .nil
  | cons part parts =>
      rw [List.forall_mem_cons] at h
      rw [commaJoin_cons]
      refine h.1.append fun b hb => ?_
      obtain ⟨part', hpart', hb⟩ := List.mem_flatMap.mp hb
      rcases List.mem_cons.mp hb with rfl | hb
      · decide
      · exact h.2 part' hpart' b hb

theorem Key.label_printable (key : Key) : Printable key.label.text := by
  have hname : Printable (Str.plain key.1 key.2).text := Str.printable _
  have hall := Printable.cons (show 0x20 ≤ quote by decide)
    (hname.append (.cons (show 0x20 ≤ quote by decide) (.cons (show 0x20 ≤ colon by decide) .nil)))
  simpa [Key.label, Label.text, Ws.none] using hall

theorem objectOf_printable {ms : List (Key × Value)} (h : ∀ m ∈ ms, Printable m.2.text) :
    Printable (objectOf ms).text := by
  have hjoin : Printable (commaJoin (ms.map memberText)) := by
    refine commaJoin_printable fun part hpart => ?_
    obtain ⟨m, hm, rfl⟩ := List.mem_map.mp hpart
    exact m.1.label_printable.append (h m hm)
  rw [objectOf_text]
  exact (Printable.cons (by decide) hjoin).append (.cons (by decide) .nil)

theorem arrayOf_printable {es : List Element} (h : ∀ e ∈ es, Printable e.value.text) :
    Printable (arrayOf es).text := by
  have hjoin : Printable (commaJoin (es.map fun e => e.value.text)) := by
    refine commaJoin_printable fun part hpart => ?_
    obtain ⟨e, he, rfl⟩ := List.mem_map.mp hpart
    exact h e he
  rw [arrayOf_text]
  exact (Printable.cons (by decide) hjoin).append (.cons (by decide) .nil)

/-- The element is on one line. -/
def Element.OneLine : Element → Prop
  | .string _ => True
  | .raw v => Printable v.text

theorem Value.string_printable (s : Str) : Printable (Value.string s).text :=
  (Printable.cons (by decide) s.printable).append (.cons (by decide) .nil)

theorem Element.OneLine.printable {e : Element} (h : e.OneLine) : Printable e.value.text := by
  cases e with
  | string s => exact Value.string_printable _
  | raw v => exact h

namespace Fields

/-- The raw parts of the fields are on one line. -/
def OneLine : Fields → Prop
  | .nil => True
  | .string _ _ rest => rest.OneLine
  | .number _ _ rest => rest.OneLine
  | .bool _ _ rest => rest.OneLine
  | .raw _ v rest => Printable v.text ∧ rest.OneLine
  | .object _ inner rest => inner.OneLine ∧ rest.OneLine
  | .array _ elements rest => (∀ e ∈ elements, e.OneLine) ∧ rest.OneLine

theorem OneLine.members_printable {fs : Fields} (h : fs.OneLine) :
    ∀ m ∈ fs.members, Printable m.2.text := by
  induction fs with
  | nil => exact List.forall_mem_nil _
  | string key s rest ih => exact List.forall_mem_cons.mpr ⟨Value.string_printable _, ih h⟩
  | number key n rest ih => exact List.forall_mem_cons.mpr ⟨Number.printable _, ih h⟩
  | bool key b rest ih => exact List.forall_mem_cons.mpr ⟨Literal.printable _, ih h⟩
  | raw key v rest ih => exact List.forall_mem_cons.mpr ⟨h.1, ih h.2⟩
  | object key inner rest ihinner ih =>
      exact List.forall_mem_cons.mpr ⟨objectOf_printable (ihinner h.1), ih h.2⟩
  | array key elements rest ih =>
      exact List.forall_mem_cons.mpr ⟨arrayOf_printable fun e he => (h.1 e he).printable, ih h.2⟩

theorem OneLine.printable {fs : Fields} (h : fs.OneLine) : Printable fs.value.text :=
  objectOf_printable h.members_printable

theorem value_isObject (fs : Fields) : fs.value.isObject = true := by
  unfold value objectOf containerOf
  cases fs.members <;> rfl

end Fields

theorem entriesOf_members (e : Label .object × Value) (es : List (Label .object × Value)) :
    (entriesOf e es).members = (e :: es).map fun e => (e.1.name, e.2) := by
  induction es generalizing e with
  | nil => rfl
  | cons e' es ih =>
      rw [entriesOf, Entries.members, ih]
      rfl

theorem containerOf_members (es : List (Label .object × Value)) :
    (containerOf .object es).members = es.map fun e => (e.1.name, e.2) := by
  cases es with
  | nil => rfl
  | cons e es => exact entriesOf_members e es

/-- The members of a document are its fields. -/
theorem objectOf_members (ms : List (Key × Value)) :
    (objectOf ms).members = ms.map fun m => (m.1.1, m.2) := by
  rw [objectOf, containerOf_members, List.map_map]
  refine List.map_congr_left fun m _ => ?_
  simp [Key.label, Label.name]

end McpToolkit
