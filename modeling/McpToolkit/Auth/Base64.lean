import McpToolkit.Base.Bytes
/-!
# Base64

The encoder of token signatures.
-/

namespace McpToolkit

def base64Chars : Bytes :=
  ascii "ABCDEFGHIJKLMNOPQRSTUVWXYZabcdefghijklmnopqrstuvwxyz0123456789+/"

def base64Char (i : UInt8) : UInt8 := base64Chars.getD i.toNat 0

/-- The four characters of three octets. -/
def base64Group (a b c : UInt8) : Bytes :=
  [base64Char ((a &&& 0xfc) >>> 2),
    base64Char (((a &&& 0x03) <<< 4) + ((b &&& 0xf0) >>> 4)),
    base64Char (((b &&& 0x0f) <<< 2) + ((c &&& 0xc0) >>> 6)),
    base64Char (c &&& 0x3f)]

/-- `base64_encode`: groups of three octets, the last one filled up with zeros of
which as many as are needed become `=`. -/
def base64Encode : Bytes → Bytes
  | [] => []
  | [a] => (base64Group a 0 0).take 2 ++ [0x3D, 0x3D]
  | [a, b] => (base64Group a b 0).take 3 ++ [0x3D]
  | a :: b :: c :: t => base64Group a b c ++ base64Encode t

example : base64Encode (ascii "many") = ascii "bWFueQ==" := by decide

theorem toNat_and_le (a m : UInt8) : (a &&& m).toNat ≤ m.toNat := by
  rw [UInt8.toNat_and]
  exact Nat.and_le_right

/-- Every index that a group looks up is in the table. -/
theorem base64_index_lt (a b : UInt8) :
    ((a &&& 0xfc) >>> 2).toNat < 64 ∧
      (((a &&& 0x03) <<< 4) + ((b &&& 0xf0) >>> 4)).toNat < 64 ∧
      (((a &&& 0x0f) <<< 2) + ((b &&& 0xc0) >>> 6)).toNat < 64 ∧ (a &&& 0x3f).toNat < 64 := by
  have h₁ := toNat_and_le a 0xfc
  have h₂ := toNat_and_le a 0x03
  have h₃ := toNat_and_le b 0xf0
  have h₄ := toNat_and_le a 0x0f
  have h₅ := toNat_and_le b 0xc0
  have h₆ := toNat_and_le a 0x3f
  simp only [UInt8.toNat_add, UInt8.toNat_shiftRight, UInt8.toNat_shiftLeft,
    Nat.shiftRight_eq_div_pow, Nat.shiftLeft_eq, UInt8.reduceToNat, Nat.reduceMod,
    Nat.reducePow] at *
  omega

theorem base64Char_mem {i : UInt8} (h : i.toNat < 64) : base64Char i ∈ base64Chars := by
  have hlen : base64Chars.length = 64 := by decide
  have hi : i.toNat < base64Chars.length := by omega
  rw [base64Char, List.getD_eq_getElem?_getD, List.getElem?_eq_getElem hi]
  exact List.getElem_mem hi

theorem base64Group_mem (a b c : UInt8) : ∀ x ∈ base64Group a b c, x ∈ base64Chars := by
  have hab := base64_index_lt a b
  have hbc := base64_index_lt b c
  have hc := base64_index_lt c c
  simp only [base64Group, List.forall_mem_cons, List.not_mem_nil, false_imp_iff, implies_true,
    and_true]
  exact ⟨base64Char_mem hab.1, base64Char_mem hab.2.1, base64Char_mem hbc.2.2.1,
    base64Char_mem hc.2.2.2⟩

theorem base64Encode_mem (l : Bytes) :
    ∀ x ∈ base64Encode l, x ∈ base64Chars ∨ x = 0x3D := by
  induction l using base64Encode.induct with
  | case1 => exact List.forall_mem_nil _
  | case2 a =>
      intro x hx
      rcases List.mem_append.mp hx with hx | hx
      · exact .inl (base64Group_mem a 0 0 x (List.mem_of_mem_take hx))
      · exact .inr (by simpa using hx)
  | case3 a b =>
      intro x hx
      rcases List.mem_append.mp hx with hx | hx
      · exact .inl (base64Group_mem a b 0 x (List.mem_of_mem_take hx))
      · exact .inr (by simpa using hx)
  | case4 a b c t ih =>
      intro x hx
      rcases List.mem_append.mp hx with hx | hx
      · exact .inl (base64Group_mem a b c x hx)
      · exact ih x hx

theorem notMem_base64Encode {b : UInt8} (hb : b ∉ base64Chars ++ [0x3D]) (l : Bytes) :
    b ∉ base64Encode l := by
  intro hmem
  rcases base64Encode_mem l b hmem with h | h
  · exact hb (List.mem_append_left _ h)
  · exact hb (by simp [h])

theorem base64Encode_ne_nil {l : Bytes} (h : l ≠ []) : base64Encode l ≠ [] := by
  match l with
  | [] => exact absurd rfl h
  | [_] => exact List.cons_ne_nil _ _
  | [_, _] => exact List.cons_ne_nil _ _
  | _ :: _ :: _ :: _ => exact List.cons_ne_nil _ _

end McpToolkit
