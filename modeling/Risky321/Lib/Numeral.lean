/-
Risky321.Lib.Numeral — numbers written in digits, as bytes.

The decimal numerals are those of `Nat.repr` and `Int.repr`; what is proved of
them is the step a program takes that divides by ten, and how long they get.
The hexadecimal ones have a fixed number of digits.
-/
import Mathlib.Data.List.Basic
import Mathlib.Data.Nat.Basic
import Mathlib.Tactic.NormNum
import Mathlib.Tactic.Common

namespace Risky321.Lib

variable {n : Nat}

/-! ## §1 Decimal -/

/-- The shortest decimal numeral of a natural number. -/
def natNumeral (n : Nat) : List UInt8 := n.repr.toList.map Char.toUInt8

/-- The shortest decimal numeral of an integer: a minus sign before that of
its absolute value if it is negative. -/
def intNumeral (z : Int) : List UInt8 := z.repr.toList.map Char.toUInt8

/-- The byte of a decimal digit. -/
def decDigit (d : Nat) : UInt8 := d.digitChar.toUInt8

theorem natNumeral_of_lt (h : n < 10) : natNumeral n = [decDigit n] := by
  rw [natNumeral, Nat.toList_repr, Nat.toDigits_of_lt_base h]
  rfl

/-- Dividing by ten takes the last digit off. -/
theorem natNumeral_of_le (h : 10 ≤ n) :
    natNumeral n = natNumeral (n / 10) ++ [decDigit (n % 10)] := by
  simp only [natNumeral, Nat.toList_repr]
  rw [Nat.toDigits_of_base_le (by decide) h, List.map_append]
  rfl

theorem natNumeral_length_le {k : Nat} (hk : 0 < k) (h : n < 10 ^ k) :
    (natNumeral n).length ≤ k := by
  rw [natNumeral, List.length_map, Nat.toList_repr]
  exact (Nat.length_toDigits_le_iff (by decide) hk).mpr h

theorem intNumeral_of_nonneg {z : Int} (h : 0 ≤ z) : intNumeral z = natNumeral z.toNat := by
  obtain ⟨m, rfl⟩ := Int.eq_ofNat_of_zero_le h
  rfl

theorem intNumeral_of_neg {z : Int} (h : z < 0) :
    intNumeral z = Char.toUInt8 ( '-') :: natNumeral (-z).toNat := by
  obtain ⟨m, rfl⟩ := Int.eq_negSucc_of_lt_zero h
  have hrepr : (Int.negSucc m).repr = "-" ++ (m + 1).repr := rfl
  rw [intNumeral, hrepr, String.toList_append, List.map_append]
  rfl

/-! ## §2 Hexadecimal -/

/-- The byte of an upper-case hexadecimal digit. -/
def hexDigit (d : Nat) : UInt8 :=
  if d < 10 then UInt8.ofNat (48 + d) else UInt8.ofNat (55 + d)

/-- The last `w` hexadecimal digits of a number, the highest first. -/
def hexNumeral : Nat → Nat → List UInt8
  | 0, _ => []
  | w + 1, n => hexDigit (n / 16 ^ w % 16) :: hexNumeral w n

/-- Digits below ten are the decimal ones. -/
theorem hexDigit_of_lt : ∀ d < 10, hexDigit d = decDigit d := by
  decide

end Risky321.Lib
