import McpToolkit.Base.Bytes
/-!
# Decimal numerals

`std::to_string` on the integer types of the sources.
-/

namespace McpToolkit

/-- The decimal digits of a number. -/
def decimal (n : Nat) : Bytes := (Nat.toDigits 10 n).map Char.toUInt8

/-- `std::to_string`. -/
def toDecimal : Int → Bytes
  | .ofNat n => decimal n
  | .negSucc n => minus :: decimal (n + 1)

theorem toUInt8_digitChar {d : Nat} (hd : d < 10) : (Nat.digitChar d).toUInt8.toNat = 48 + d := by
  have hall : ∀ d < 10, (Nat.digitChar d).toUInt8.toNat = 48 + d := by decide
  exact hall d hd

theorem decimal_of_lt {n : Nat} (h : n < 10) : decimal n = [(Nat.digitChar n).toUInt8] := by
  rw [decimal, Nat.toDigits_of_lt_base h]
  rfl

theorem decimal_of_le {n : Nat} (h : 10 ≤ n) :
    decimal n = decimal (n / 10) ++ [(Nat.digitChar (n % 10)).toUInt8] := by
  rw [decimal, Nat.toDigits_of_base_le (by decide) h, List.map_append]
  rfl

theorem isdigit_digitChar {d : Nat} (hd : d < 10) : isdigit (Nat.digitChar d).toUInt8 := by
  have hall : ∀ d < 10, isdigit (Nat.digitChar d).toUInt8 = true := by decide
  exact hall d hd

theorem isdigit_decimal (n : Nat) : ∀ b ∈ decimal n, isdigit b := by
  induction n using Nat.strong_induction_on with
  | _ n ih =>
      by_cases h : n < 10
      · rw [decimal_of_lt h]
        simpa using isdigit_digitChar h
      · rw [decimal_of_le (by omega)]
        intro b hb
        rcases List.mem_append.mp hb with hb | hb
        · exact ih (n / 10) (by omega) b hb
        · rw [List.mem_singleton.mp hb]
          exact isdigit_digitChar (Nat.mod_lt n (by decide))

theorem decimal_ne_nil (n : Nat) : decimal n ≠ [] := by
  rw [decimal, Ne, List.map_eq_nil_iff]
  exact Nat.toDigits_ne_nil

theorem decimal_head {n : Nat} (hn : 0 < n) : (decimal n).head? ≠ some 0x30 := by
  induction n using Nat.strong_induction_on with
  | _ n ih =>
      by_cases h : n < 10
      · have hall : ∀ d < 10, 0 < d → (Nat.digitChar d).toUInt8 ≠ 0x30 := by decide
        rw [decimal_of_lt h]
        simpa using hall n h hn
      · rw [decimal_of_le (by omega), List.head?_append_of_ne_nil _ (decimal_ne_nil _)]
        exact ih (n / 10) (by omega) (by omega)

/-- There is no leading zero. -/
theorem decimal_shape (n : Nat) (h : (decimal n).head? = some 0x30) : (decimal n).length = 1 := by
  have hn : n = 0 := by
    by_contra hne
    exact decimal_head (Nat.pos_of_ne_zero hne) h
  subst hn
  rfl

end McpToolkit
