import McpToolkit.Auth.Handler
import Mathlib.Algebra.Group.Nat.Defs
/-!
# Base64 both ways

The loops of `base64_encode` and `base64_decode`.  Each gathers octets until a group is
full, writes what the group stands for and starts the next one; a group that is not full
at the end is filled up with zeros.  The decoder stops at the first `=`.  The encoder's
loop is `base64Encode`, and the decoder's undoes it group by group.
-/

namespace McpToolkit

abbrev padding : UInt8 := 0x3D

/-! ## The loops -/

/-- What is written for a group that is not full, `chars` being the entries of
`char_array_3` that are set. -/
def base64EncodeTail (chars : Bytes) : Bytes :=
  if chars.length > 0 then
    (base64Group (chars.getD 0 0) (chars.getD 1 0) (chars.getD 2 0)).take (chars.length + 1) ++
      List.replicate (3 - chars.length) padding
  else []

/-- The loop of `base64_encode` over the octets that are left. -/
def base64EncodeFrom : Bytes → Bytes → Bytes → Bytes
  | [], chars, result => result ++ base64EncodeTail chars
  | b :: data, chars, result =>
      match chars ++ [b] with
      | [x, y, z] => base64EncodeFrom data [] (result ++ base64Group x y z)
      | chars' => base64EncodeFrom data chars' result

def base64EncodeLoop (data : Bytes) : Bytes := base64EncodeFrom data [] []

/-- The three octets of four indices. -/
def base64Octets (x y z w : UInt8) : Bytes :=
  [(x <<< 2) + ((y &&& 0x30) >>> 4), ((y &&& 0xf) <<< 4) + ((z &&& 0x3c) >>> 2),
    ((z &&& 0x3) <<< 6) + w]

/-- The octets of a group that is not full, `chars` being the entries of `char_array_4` that
are set. -/
def base64DecodeTail (chars : Bytes) : Bytes :=
  if chars.length > 0 then
    (base64Octets (chars.getD 0 0) (chars.getD 1 0) (chars.getD 2 0) (chars.getD 3 0)).take
      (chars.length - 1)
  else []

/-- The loop of `base64_decode` over the characters that are left. -/
def base64DecodeFrom : Bytes → Bytes → Bytes → Bool × Bytes
  | [], chars, decoded => (true, decoded ++ base64DecodeTail chars)
  | c :: encoded, chars, decoded =>
      if c = padding then (true, decoded ++ base64DecodeTail chars)
      else
        match base64Chars.idxOf? c with
        | none => (false, decoded)
        | some pos =>
            match chars ++ [pos.toUInt8] with
            | [x, y, z, w] => base64DecodeFrom encoded [] (decoded ++ base64Octets x y z w)
            | chars' => base64DecodeFrom encoded chars' decoded

/-- `base64_decode`, which says whether all characters were known, and the text that it
leaves.  The length is narrowed to an `int`. -/
def base64Decode (encoded : Bytes) : Bool × Bytes :=
  let inLen := (encoded.length : Int).bmod (2 ^ 32)
  base64DecodeFrom (encoded.take inLen.toNat) [] []

example : base64Decode (ascii "bWFueQ==") = (true, ascii "many") := by decide

/-! ## The encoder's loop -/

theorem base64EncodeFrom_eq (data result : Bytes) :
    base64EncodeFrom data [] result = result ++ base64Encode data := by
  induction data using base64Encode.induct generalizing result with
  | case1 => rfl
  | case2 a => rfl
  | case3 a b => rfl
  | case4 a b c t ih =>
      have hgroup : base64EncodeFrom (a :: b :: c :: t) [] result =
          base64EncodeFrom t [] (result ++ base64Group a b c) := rfl
      rw [hgroup, ih, base64Encode, List.append_assoc]

/-- The loop writes the groups. -/
theorem base64EncodeLoop_eq (data : Bytes) : base64EncodeLoop data = base64Encode data :=
  base64EncodeFrom_eq data []

/-! ## The bits of an octet -/

/-- The parts of an octet that the encoder takes. -/
theorem encoder_bits (a : UInt8) :
    ((a &&& 0xfc) >>> 2).toNat = a.toNat / 4 ∧ ((a &&& 0x03) <<< 4).toNat = a.toNat % 4 * 16 ∧
      ((a &&& 0xf0) >>> 4).toNat = a.toNat / 16 ∧ ((a &&& 0x0f) <<< 2).toNat = a.toNat % 16 * 4 ∧
      ((a &&& 0xc0) >>> 6).toNat = a.toNat / 64 ∧ (a &&& 0x3f).toNat = a.toNat % 64 :=
  octets_forall (P := fun a => ((a &&& 0xfc) >>> 2).toNat = a.toNat / 4 ∧
    ((a &&& 0x03) <<< 4).toNat = a.toNat % 4 * 16 ∧ ((a &&& 0xf0) >>> 4).toNat = a.toNat / 16 ∧
    ((a &&& 0x0f) <<< 2).toNat = a.toNat % 16 * 4 ∧ ((a &&& 0xc0) >>> 6).toNat = a.toNat / 64 ∧
    (a &&& 0x3f).toNat = a.toNat % 64) (by decide +kernel) a

/-- The parts of an index that the decoder takes. -/
theorem decoder_bits (x : UInt8) :
    (x <<< 2).toNat = x.toNat * 4 % 256 ∧ ((x &&& 0x30) >>> 4).toNat = x.toNat / 16 % 4 ∧
      ((x &&& 0xf) <<< 4).toNat = x.toNat % 16 * 16 ∧
      ((x &&& 0x3c) >>> 2).toNat = x.toNat / 4 % 16 ∧
      ((x &&& 0x3) <<< 6).toNat = x.toNat % 4 * 64 :=
  octets_forall (P := fun x => (x <<< 2).toNat = x.toNat * 4 % 256 ∧
    ((x &&& 0x30) >>> 4).toNat = x.toNat / 16 % 4 ∧ ((x &&& 0xf) <<< 4).toNat = x.toNat % 16 * 16 ∧
    ((x &&& 0x3c) >>> 2).toNat = x.toNat / 4 % 16 ∧ ((x &&& 0x3) <<< 6).toNat = x.toNat % 4 * 64)
    (by decide +kernel) x

/-! ## A group -/

/-- The four indices of three octets. -/
def sextet₀ (a : UInt8) : UInt8 := (a &&& 0xfc) >>> 2
def sextet₁ (a b : UInt8) : UInt8 := ((a &&& 0x03) <<< 4) + ((b &&& 0xf0) >>> 4)
def sextet₂ (b c : UInt8) : UInt8 := ((b &&& 0x0f) <<< 2) + ((c &&& 0xc0) >>> 6)
def sextet₃ (c : UInt8) : UInt8 := c &&& 0x3f

theorem base64Group_eq (a b c : UInt8) : base64Group a b c =
    [base64Char (sextet₀ a), base64Char (sextet₁ a b), base64Char (sextet₂ b c),
      base64Char (sextet₃ c)] := rfl

theorem toNat_sextet (a b : UInt8) :
    (sextet₀ a).toNat = a.toNat / 4 ∧ (sextet₁ a b).toNat = a.toNat % 4 * 16 + b.toNat / 16 ∧
      (sextet₂ a b).toNat = a.toNat % 16 * 4 + b.toNat / 64 ∧ (sextet₃ a).toNat = a.toNat % 64 := by
  obtain ⟨h₀, h₁, -, h₂, -, h₃⟩ := encoder_bits a
  obtain ⟨-, -, h₁', -, h₂', -⟩ := encoder_bits b
  have hb := b.toNat_lt
  refine ⟨h₀, ?_, ?_, h₃⟩
  · rw [sextet₁, UInt8.toNat_add, h₁, h₁']
    omega
  · rw [sextet₂, UInt8.toNat_add, h₂, h₂']
    omega

/-- Four indices give back the octets that they were made of. -/
theorem base64Octets_sextets (a b c : UInt8) :
    base64Octets (sextet₀ a) (sextet₁ a b) (sextet₂ b c) (sextet₃ c) = [a, b, c] := by
  obtain ⟨hab₀, hab₁, -, -⟩ := toNat_sextet a b
  obtain ⟨-, -, hbc₂, -⟩ := toNat_sextet b c
  obtain ⟨-, -, -, hc₃⟩ := toNat_sextet c c
  obtain ⟨hx, -⟩ := decoder_bits (sextet₀ a)
  obtain ⟨-, hy, hy', -⟩ := decoder_bits (sextet₁ a b)
  obtain ⟨-, -, -, hz, hz'⟩ := decoder_bits (sextet₂ b c)
  have ha := a.toNat_lt
  have hb := b.toNat_lt
  have hc := c.toNat_lt
  have hfirst : (sextet₀ a <<< 2) + ((sextet₁ a b &&& 0x30) >>> 4) = a := by
    rw [← UInt8.toNat_inj, UInt8.toNat_add, hx, hy, hab₀, hab₁]
    omega
  have hsecond : ((sextet₁ a b &&& 0xf) <<< 4) + ((sextet₂ b c &&& 0x3c) >>> 2) = b := by
    rw [← UInt8.toNat_inj, UInt8.toNat_add, hy', hz, hab₁, hbc₂]
    omega
  have hthird : ((sextet₂ b c &&& 0x3) <<< 6) + sextet₃ c = c := by
    rw [← UInt8.toNat_inj, UInt8.toNat_add, hz', hbc₂, hc₃]
    omega
  rw [base64Octets, hfirst, hsecond, hthird]

/-! ## Decoding what was encoded -/

/-- The table has a character for each index, and `=` is none of them. -/
theorem base64Char_spec {i : UInt8} (h : i.toNat < 64) :
    base64Char i ≠ padding ∧ base64Chars.idxOf? (base64Char i) = some i.toNat :=
  octets_forall (P := fun i => i.toNat < 64 →
    base64Char i ≠ padding ∧ base64Chars.idxOf? (base64Char i) = some i.toNat)
    (by decide +kernel) i h

theorem base64DecodeFrom_base64Char {i : UInt8} (h : i.toNat < 64) (rest chars decoded : Bytes) :
    base64DecodeFrom (base64Char i :: rest) chars decoded =
      match chars ++ [i] with
      | [x, y, z, w] => base64DecodeFrom rest [] (decoded ++ base64Octets x y z w)
      | chars' => base64DecodeFrom rest chars' decoded := by
  obtain ⟨hpadding, hindex⟩ := base64Char_spec h
  rw [base64DecodeFrom, if_neg hpadding, hindex]
  dsimp only
  rw [Nat.toUInt8, UInt8.ofNat_toNat]

section rest

variable (a b c : UInt8) (rest decoded : Bytes)

/-- The first two characters of a group are gathered. -/
theorem base64DecodeFrom_two :
    base64DecodeFrom (base64Char (sextet₀ a) :: base64Char (sextet₁ a b) :: rest) [] decoded =
      base64DecodeFrom rest [sextet₀ a, sextet₁ a b] decoded := by
  obtain ⟨h₀, h₁, -, -⟩ := toNat_sextet a b
  have ha := a.toNat_lt
  have hb := b.toNat_lt
  rw [base64DecodeFrom_base64Char (by omega), List.nil_append]
  dsimp only
  rw [base64DecodeFrom_base64Char (by omega), List.singleton_append]

theorem base64DecodeFrom_third (x y : UInt8) :
    base64DecodeFrom (base64Char (sextet₂ b c) :: rest) [x, y] decoded =
      base64DecodeFrom rest [x, y, sextet₂ b c] decoded := by
  obtain ⟨-, -, h₂, -⟩ := toNat_sextet b c
  have hc := c.toNat_lt
  rw [base64DecodeFrom_base64Char (by omega), List.cons_append, List.singleton_append]

/-- A full group is decoded. -/
theorem base64DecodeFrom_group :
    base64DecodeFrom (base64Group a b c ++ rest) [] decoded =
      base64DecodeFrom rest [] (decoded ++ [a, b, c]) := by
  obtain ⟨-, -, -, h₃⟩ := toNat_sextet c c
  rw [base64Group_eq, List.cons_append, List.cons_append, base64DecodeFrom_two,
    List.cons_append, base64DecodeFrom_third, List.singleton_append,
    base64DecodeFrom_base64Char (by omega)]
  dsimp only [List.cons_append, List.nil_append]
  rw [base64Octets_sextets]

theorem base64DecodeFrom_padding (chars : Bytes) :
    base64DecodeFrom (padding :: rest) chars decoded =
      (true, decoded ++ base64DecodeTail chars) := by
  rw [base64DecodeFrom, if_pos rfl]

end rest

/-- One octet that is left over. -/
theorem base64DecodeTail_two (a : UInt8) : base64DecodeTail [sextet₀ a, sextet₁ a 0] = [a] := by
  have hoctets := base64Octets_sextets a 0 0
  rw [base64Octets, List.cons.injEq] at hoctets
  exact congrArg ([·]) hoctets.1

/-- Two octets that are left over. -/
theorem base64DecodeTail_three (a b : UInt8) :
    base64DecodeTail [sextet₀ a, sextet₁ a b, sextet₂ b 0] = [a, b] := by
  have hoctets := base64Octets_sextets a b 0
  rw [base64Octets, List.cons.injEq, List.cons.injEq] at hoctets
  exact congrArg₂ ([·, ·]) hoctets.1 hoctets.2.1

theorem base64DecodeFrom_encode (x decoded : Bytes) :
    base64DecodeFrom (base64Encode x) [] decoded = (true, decoded ++ x) := by
  induction x using base64Encode.induct generalizing decoded with
  | case1 => rfl
  | case2 a =>
      have hcut : base64Encode [a] =
          base64Char (sextet₀ a) :: base64Char (sextet₁ a 0) :: [padding, padding] := rfl
      rw [hcut, base64DecodeFrom_two, base64DecodeFrom_padding, base64DecodeTail_two]
  | case3 a b =>
      have hcut : base64Encode [a, b] = base64Char (sextet₀ a) :: base64Char (sextet₁ a b) ::
          base64Char (sextet₂ b 0) :: [padding] := rfl
      rw [hcut, base64DecodeFrom_two, base64DecodeFrom_third, base64DecodeFrom_padding,
        base64DecodeTail_three]
  | case4 a b c t ih =>
      rw [base64Encode, base64DecodeFrom_group, ih, List.append_assoc]
      rfl

/-- Decoding undoes encoding as long as the length of the text is an `int`. -/
theorem base64Decode_encode {x : Bytes} (h : (base64Encode x).length < 2 ^ 31) :
    base64Decode (base64Encode x) = (true, x) := by
  have hlen : ((base64Encode x).length : Int).bmod (2 ^ 32) = (base64Encode x).length := by
    rw [Int.bmod_eq_of_le] <;> omega
  rw [base64Decode, hlen, Int.toNat_natCast, List.take_length]
  exact base64DecodeFrom_encode x []

/-! ## The encoded text -/

theorem length_base64Encode (x : Bytes) :
    (base64Encode x).length = 4 * ((x.length + 2) / 3) := by
  induction x using base64Encode.induct with
  | case1 => rfl
  | case2 a => simp [base64Encode, base64Group]
  | case3 a b => simp [base64Encode, base64Group]
  | case4 a b c t ih =>
      rw [base64Encode, List.length_append, ih]
      simp only [base64Group, List.length_cons, List.length_nil]
      omega

/-- Characters of the table come first and at most two `=` behind them. -/
theorem base64Encode_split (x : Bytes) : ∃ body k,
    base64Encode x = body ++ List.replicate k padding ∧ k ≤ 2 ∧ ∀ c ∈ body, c ∈ base64Chars := by
  induction x using base64Encode.induct with
  | case1 => exact ⟨[], 0, rfl, by omega, List.forall_mem_nil _⟩
  | case2 a =>
      exact ⟨(base64Group a 0 0).take 2, 2, rfl, by omega,
        fun c hc => base64Group_mem a 0 0 c (List.mem_of_mem_take hc)⟩
  | case3 a b =>
      exact ⟨(base64Group a b 0).take 3, 1, rfl, by omega,
        fun c hc => base64Group_mem a b 0 c (List.mem_of_mem_take hc)⟩
  | case4 a b c t ih =>
      obtain ⟨body, k, heq, hk, hbody⟩ := ih
      refine ⟨base64Group a b c ++ body, k, ?_, hk, fun d hd => ?_⟩
      · rw [base64Encode, heq, List.append_assoc]
      · rcases List.mem_append.mp hd with hd | hd
        · exact base64Group_mem a b c d hd
        · exact hbody d hd

/-- What is encoded in fewer than 2^31 characters is as long as it should be, has only
characters of the table and at most two `=` behind them, and is decoded again.  Two
digests never have the same text. -/
theorem base64_round_trip :
    (∀ x : Bytes, (base64EncodeLoop x).length < 2 ^ 31 →
      (base64EncodeLoop x).length = 4 * ((x.length + 2) / 3) ∧
        (∃ body k, base64EncodeLoop x = body ++ List.replicate k padding ∧ k ≤ 2 ∧
          ∀ c ∈ body, c ∈ base64Chars) ∧
        base64Decode (base64EncodeLoop x) = (true, x)) ∧
      ∀ d d' : Digest, d ≠ d' → base64EncodeLoop d.1 ≠ base64EncodeLoop d'.1 := by
  simp only [base64EncodeLoop_eq]
  refine ⟨fun x hx => ⟨length_base64Encode x, base64Encode_split x, base64Decode_encode hx⟩,
    fun d d' hne heq => hne ?_⟩
  have hshort : ∀ d : Digest, (base64Encode d.1).length < 2 ^ 31 := by
    intro d
    rw [length_base64Encode, d.2]
    decide
  have htexts : (true, d.1) = (true, d'.1) := by
    rw [← base64Decode_encode (hshort d), heq, base64Decode_encode (hshort d')]
  exact Subtype.ext (Prod.ext_iff.mp htexts).2

end McpToolkit
