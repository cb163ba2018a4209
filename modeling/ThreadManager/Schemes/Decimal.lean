import Mathlib.Data.Nat.Digits.Lemmas
import ThreadManager.Schemes.CString

/-! Numbers in decimal, as bytes.

    `decimal` is what a loop that divides by ten writes from the last digit to the first, `parseDecimal`
    what a reader makes of such a text. The loop writes nothing for 0, and the reader takes no empty
    text. -/

namespace Schemes

/-- `'0' + d`. -/
def digitByte (d : ℕ) : Byte := 48 + UInt8.ofNat d

/-- The digits of `n`; there are none for 0. -/
def decimal (n : ℕ) : List Byte := ((Nat.digits 10 n).map digitByte).reverse

/-- The number so far, and one more byte. -/
def readDigit (v : Option ℕ) (b : Byte) : Option ℕ :=
  v.bind fun v => if 48 ≤ b.toNat ∧ b.toNat ≤ 57 then some (10 * v + (b.toNat - 48)) else none

/-- The number a text shows, if it is digits and not empty. -/
def parseDecimal (s : List Byte) : Option ℕ := if s = [] then none else s.foldl readDigit (some 0)

variable {d k n : ℕ}

@[simp] theorem decimal_zero : decimal 0 = [] := by simp [decimal]

/-- The last digit is the remainder. -/
theorem decimal_of_pos (h : 0 < n) : decimal n = decimal (n / 10) ++ [digitByte (n % 10)] := by
  rw [decimal, Nat.digits_def' (by decide) h, List.map_cons, List.reverse_cons]
  rfl

theorem length_decimal_le (h : n < 10 ^ k) : (decimal n).length ≤ k := by
  rw [decimal, List.length_reverse, List.length_map]
  exact (Nat.digits_length_le_iff (by decide) n).mpr h

theorem toNat_digitByte (h : d < 10) : (digitByte d).toNat = 48 + d := by
  rw [digitByte, UInt8.toNat_add, UInt8.toNat_ofNat']
  simp only [UInt8.reduceToNat]
  omega

theorem readDigit_digitByte (h : d < 10) (v : ℕ) :
    readDigit (some v) (digitByte d) = some (10 * v + d) := by
  have hd := toNat_digitByte h
  rw [readDigit, Option.bind_some, if_pos (by omega), hd]
  congr 2
  omega

theorem foldl_decimal (n : ℕ) : (decimal n).foldl readDigit (some 0) = some n := by
  induction n using Nat.strong_induction_on with
  | _ n ih =>
    rcases Nat.eq_zero_or_pos n with rfl | hpos
    · simp
    · rw [decimal_of_pos hpos, List.foldl_append, ih (n / 10) (by omega), List.foldl_cons,
        List.foldl_nil, readDigit_digitByte (Nat.mod_lt n (by decide))]
      congr 1
      omega

/-- What is written is what is read. -/
theorem parseDecimal_decimal (h : 0 < n) : parseDecimal (decimal n) = some n := by
  have hne : decimal n ≠ [] := by
    rw [decimal_of_pos h]
    simp
  rw [parseDecimal, if_neg hne, foldl_decimal]

end Schemes
