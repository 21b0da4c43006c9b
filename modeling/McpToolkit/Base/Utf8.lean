import McpToolkit.Base.Bytes
/-!
# UTF-8

The encodings of texts as octets.  No character is encoded by the start of another one's
encoding, and an octet below 128 stands for itself wherever it occurs.
-/

namespace McpToolkit

open String (utf8EncodeChar)

/-- The octets encode some characters. -/
def Utf8 (s : Bytes) : Prop := ∃ cs : List Char, s = cs.flatMap utf8EncodeChar

theorem toByteArray_inj {s t : Bytes} (h : s.toByteArray = t.toByteArray) : s = t := by
  have hdata := congrArg (fun a : ByteArray => a.data.toList) h
  simpa only [List.data_toByteArray, List.toList_toArray] using hdata

theorem utf8_iff {s : Bytes} : Utf8 s ↔ s.toByteArray.IsValidUTF8 := by
  constructor
  · rintro ⟨cs, rfl⟩
    exact ⟨cs, rfl⟩
  · rintro ⟨cs, h⟩
    exact ⟨cs, toByteArray_inj h⟩

instance (s : Bytes) : Decidable (Utf8 s) := decidable_of_iff _ utf8_iff.symm

theorem Utf8.nil : Utf8 [] := ⟨[], rfl⟩

theorem Utf8.append {s t : Bytes} (hs : Utf8 s) (ht : Utf8 t) : Utf8 (s ++ t) := by
  obtain ⟨cs, rfl⟩ := hs
  obtain ⟨ds, rfl⟩ := ht
  exact ⟨cs ++ ds, List.flatMap_append.symm⟩

theorem utf8_encode (c : Char) : Utf8 (utf8EncodeChar c) :=
  ⟨[c], by rw [List.flatMap_singleton]⟩

/-! ## Characters -/

/-- What follows a character can be read. -/
theorem encode_append_inj {c d : Char} {s t : Bytes}
    (h : utf8EncodeChar c ++ s = utf8EncodeChar d ++ t) : c = d ∧ s = t := by
  have hdecode : ∀ (c : Char) (s : Bytes),
      (utf8EncodeChar c ++ s).toByteArray.utf8DecodeChar? 0 = some c := by
    intro c s
    rw [List.toByteArray_append]
    exact ByteArray.utf8DecodeChar?_utf8EncodeChar_append
  have hc := hdecode c s
  rw [h, hdecode d t, Option.some_inj] at hc
  subst hc
  exact ⟨rfl, List.append_cancel_left h⟩

theorem utf8_encode_append (c : Char) (s : Bytes) : Utf8 (utf8EncodeChar c ++ s) ↔ Utf8 s := by
  refine ⟨?_, (utf8_encode c).append⟩
  rintro ⟨cs, h⟩
  cases cs with
  | nil =>
      have hlength := congrArg List.length h
      rw [List.length_append, String.length_utf8EncodeChar] at hlength
      have hpos := c.utf8Size_pos
      simp only [List.flatMap_nil, List.length_nil] at hlength
      omega
  | cons d cs =>
      rw [List.flatMap_cons] at h
      exact ⟨cs, (encode_append_inj h).2⟩

theorem utf8_append_iff {s : Bytes} (hs : Utf8 s) (t : Bytes) : Utf8 (s ++ t) ↔ Utf8 t := by
  obtain ⟨cs, rfl⟩ := hs
  induction cs with
  | nil => rfl
  | cons c cs ih => rw [List.flatMap_cons, List.append_assoc, utf8_encode_append, ih]

/-- The front of a character encodes nothing. -/
theorem not_utf8_front {c : Char} {front back : Bytes} (h : front ++ back = utf8EncodeChar c)
    (hfront : front ≠ []) (hback : back ≠ []) : ¬ Utf8 front := by
  rintro ⟨cs, rfl⟩
  cases cs with
  | nil => exact hfront rfl
  | cons d cs =>
      rw [List.flatMap_cons, List.append_assoc, ← List.append_nil (utf8EncodeChar c)] at h
      exact hback (List.append_eq_nil_iff.mp (encode_append_inj h).2).2

/-! ## Octets below 128 -/

theorem encode_ascii {b : UInt8} (hb : b < 0x80) : utf8EncodeChar (Char.ofUInt8 b) = [b] := by
  have hsize : (Char.ofUInt8 b).utf8Size = 1 := by
    rw [Char.utf8Size_eq_one_iff, UInt32.le_iff_toNat_le]
    exact Nat.le_of_lt_succ (UInt8.lt_iff_toNat_lt.mp hb)
  rw [String.utf8EncodeChar_eq_singleton hsize]
  exact congrArg (fun c => [c]) (UInt8.toUInt8_toUInt32 b)

theorem firstByte_of_ascii {b : UInt8} (hb : b < 0x80) : b.IsUTF8FirstByte := by
  have hfirst := UInt8.isUTF8FirstByte_getElem_zero_utf8EncodeChar (c := Char.ofUInt8 b)
  simpa only [encode_ascii hb, List.getElem_cons_zero] using hfirst

/-- An octet below 128 is a character by itself. -/
theorem encode_eq_singleton {c : Char} {b : UInt8} (hb : b < 0x80) (h : b ∈ utf8EncodeChar c) :
    utf8EncodeChar c = [b] := by
  obtain ⟨i, hi, heq⟩ := List.mem_iff_getElem.mp h
  have hfirst := firstByte_of_ascii hb
  rw [← heq, UInt8.isUTF8FirstByte_getElem_utf8EncodeChar] at hfirst
  subst hfirst
  obtain ⟨rest, hrest⟩ : ∃ rest, utf8EncodeChar c = b :: rest := by
    cases hencode : utf8EncodeChar c with
    | nil => simp [hencode] at hi
    | cons d rest =>
        simp only [hencode, List.getElem_cons_zero] at heq
        exact ⟨rest, by rw [heq]⟩
  have happend : utf8EncodeChar c ++ [] = utf8EncodeChar (Char.ofUInt8 b) ++ rest := by
    rw [encode_ascii hb, List.append_nil, hrest, List.singleton_append]
  obtain ⟨hchar, -⟩ := encode_append_inj happend
  rw [hchar, encode_ascii hb]

theorem utf8_singleton {b : UInt8} (hb : b < 0x80) : Utf8 [b] :=
  encode_ascii hb ▸ utf8_encode _

theorem utf8_ascii {s : Bytes} (h : s.all (· < 0x80)) : Utf8 s := by
  induction s with
  | nil => exact .nil
  | cons b s ih =>
      rw [List.all_cons, Bool.and_eq_true, decide_eq_true_eq] at h
      exact (utf8_singleton h.1).append (ih h.2)

/-- A text is cut at an octet below 128. -/
theorem utf8_append_cons {b : UInt8} (hb : b < 0x80) (s t : Bytes) :
    Utf8 (s ++ b :: t) ↔ Utf8 s ∧ Utf8 t := by
  constructor
  · rintro ⟨cs, h⟩
    induction cs generalizing s with
    | nil => cases s <;> cases h
    | cons c cs ih =>
        rw [List.flatMap_cons, List.append_eq_append_iff] at h
        rcases h with ⟨front, hencode, hrest⟩ | ⟨back, rfl, hrest⟩
        · cases front with
          | nil =>
              rw [List.append_nil] at hencode
              exact ⟨hencode ▸ utf8_encode c, (ih [] hrest).2⟩
          | cons d front =>
              obtain ⟨rfl, rfl⟩ := List.cons.inj hrest
              have hmem : b ∈ utf8EncodeChar c := by
                rw [hencode]
                exact List.mem_append_right s List.mem_cons_self
              rw [encode_eq_singleton hb hmem, eq_comm, List.append_eq_singleton_iff] at hencode
              rcases hencode with ⟨rfl, hback⟩ | ⟨-, hback⟩
              · obtain rfl := (List.cons.inj hback).2
                exact ⟨.nil, ⟨cs, rfl⟩⟩
              · cases hback
        · obtain ⟨hback, ht⟩ := ih back hrest.symm
          exact ⟨(utf8_encode c).append hback, ht⟩
  · rintro ⟨hs, ht⟩
    exact hs.append ((utf8_singleton hb).append ht)

theorem utf8_append_ascii {w : Bytes} (hw : w.all (· < 0x80)) (hne : w ≠ []) (s t : Bytes) :
    Utf8 (s ++ (w ++ t)) ↔ Utf8 s ∧ Utf8 t := by
  obtain ⟨b, w, rfl⟩ := List.exists_cons_of_ne_nil hne
  rw [List.all_cons, Bool.and_eq_true, decide_eq_true_eq] at hw
  rw [List.cons_append, utf8_append_cons hw.1, utf8_append_iff (utf8_ascii hw.2)]

/-! ## The front of a text -/

/-- The first `n` octets of a text end between two characters, or in a character. -/
theorem utf8_take {s : Bytes} (hs : Utf8 s) (n : Nat) :
    ((∀ b, s[n]? = some b → b.IsUTF8FirstByte) ∧ Utf8 (s.take n)) ∨
    ((∃ b, s[n]? = some b ∧ ¬ b.IsUTF8FirstByte) ∧ ∃ whole broken,
      s.take n = whole ++ broken ∧ Utf8 whole ∧ ¬ Utf8 broken ∧ ∀ b ∈ broken, ¬ b < 0x80) := by
  obtain ⟨cs, rfl⟩ := hs
  induction cs generalizing n with
  | nil =>
      refine .inl ⟨fun b hb => ?_, ?_⟩
      · rw [List.flatMap_nil, List.getElem?_nil] at hb
        cases hb
      · rw [List.flatMap_nil, List.take_nil]
        exact .nil
  | cons c cs ih =>
      rw [List.flatMap_cons]
      by_cases hn : n < (utf8EncodeChar c).length
      · have hget : (utf8EncodeChar c ++ cs.flatMap utf8EncodeChar)[n]? =
            some (utf8EncodeChar c)[n] := by
          rw [List.getElem?_append_left hn, List.getElem?_eq_getElem hn]
        rw [hget, List.take_append_of_le_length hn.le]
        by_cases hzero : n = 0
        · subst hzero
          refine .inl ⟨?_, .nil⟩
          rintro b ⟨⟩
          exact UInt8.isUTF8FirstByte_getElem_utf8EncodeChar.mpr rfl
        · have hsplit := List.take_append_drop n (utf8EncodeChar c)
          have hlength := congrArg List.length hsplit
          refine .inr ⟨⟨_, rfl, ?_⟩, [], (utf8EncodeChar c).take n, rfl, .nil, ?_, ?_⟩
          · rwa [UInt8.isUTF8FirstByte_getElem_utf8EncodeChar]
          · refine not_utf8_front hsplit ?_ ?_ <;> rw [← List.length_pos_iff] <;>
              simp only [List.length_take, List.length_drop] <;> omega
          · intro b hb hascii
            have hsingle := encode_eq_singleton hascii (List.mem_of_mem_take hb)
            rw [hsingle, List.length_singleton] at hn
            omega
      · rw [not_lt] at hn
        rw [List.getElem?_append_right hn, List.take_append, List.take_of_length_le hn]
        rcases ih (n - (utf8EncodeChar c).length) with ⟨hfirst, htake⟩ |
          ⟨hfirst, whole, broken, htake, hwhole, hbroken, hascii⟩
        · exact .inl ⟨hfirst, (utf8_encode c).append htake⟩
        · refine .inr ⟨hfirst, utf8EncodeChar c ++ whole, broken, ?_,
            (utf8_encode c).append hwhole, hbroken, hascii⟩
          rw [htake, List.append_assoc]

end McpToolkit
