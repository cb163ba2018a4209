import Mathlib.Tactic

/-! Integer types of `w` bits.

    `signed` is the conversion to a signed type: the value with the same low `w` bits in its range.
    `checked` and `checkedU` are arithmetic results that must fit a signed or an unsigned type; a
    computation in which one does not is `none`. -/

namespace Schemes

/-- `(intN_t) x` for `N = w`. -/
def signed (w : ℕ) (x : ℤ) : ℤ := x.bmod (2 ^ w)

variable {w v : ℕ} {x : ℤ}

/-- The value fits the type. -/
def InSigned (w : ℕ) (x : ℤ) : Prop := -(2 ^ w : ℤ) ≤ 2 * x ∧ 2 * x < 2 ^ w

theorem inSigned_signed (w : ℕ) (x : ℤ) : InSigned w (signed w x) := by
  have hpos : 0 < 2 ^ w := Nat.two_pow_pos w
  have h1 := Int.le_bmod (x := x) hpos
  have h2 := Int.bmod_lt (x := x) hpos
  push_cast at h1 h2
  unfold InSigned signed
  omega

/-- A value that fits is kept. -/
theorem signed_of_inSigned (h : InSigned w x) : signed w x = x := by
  unfold InSigned at h
  unfold signed
  apply Int.bmod_eq_of_le_mul_two
  · push_cast; omega
  · push_cast; omega

/-- A number is narrowed to a value that fits if they differ by a multiple of `2 ^ w`. -/
theorem signed_eq_iff {y : ℤ} (h : InSigned w y) : signed w x = y ↔ (2 ^ w : ℤ) ∣ x - y := by
  have hy : y.bmod (2 ^ w) = y := signed_of_inSigned h
  have hsub : x.bmod (2 ^ w) = y.bmod (2 ^ w) ↔ (x - y).bmod (2 ^ w) = 0 :=
    Int.bmod_eq_bmod_iff_bmod_sub_eq_zero
  rw [hy, ← Int.dvd_iff_bmod_eq_zero] at hsub
  push_cast at hsub
  exact hsub

/-- A sum may be narrowed on the way. -/
theorem signed_add_left (w : ℕ) (x y : ℤ) : signed w (signed w x + y) = signed w (x + y) :=
  Int.bmod_add_bmod

theorem signed_sub (w : ℕ) (x y : ℤ) : signed w (signed w x - signed w y) = signed w (x - y) := by
  unfold signed
  rw [Int.bmod_sub_bmod, Int.sub_bmod_bmod]

theorem InSigned.mono (hwv : w ≤ v) (h : InSigned w x) : InSigned v x := by
  have hle : (2 : ℤ) ^ w ≤ 2 ^ v := pow_le_pow_right₀ (by norm_num) hwv
  unfold InSigned at h ⊢
  omega

/-- What lies between two values of a type is one. -/
theorem InSigned.between {y z : ℤ} (hx : InSigned w x) (hz : InSigned w z) (hxy : x ≤ y)
    (hyz : y ≤ z) : InSigned w y := by
  unfold InSigned at hx hz ⊢
  omega

/-- Widening a value that was narrowed keeps it. -/
theorem signed_signed_of_le (hwv : w ≤ v) : signed v (signed w x) = signed w x :=
  signed_of_inSigned ((inSigned_signed w x).mono hwv)

instance : Decidable (InSigned w x) := inferInstanceAs (Decidable (_ ∧ _))

/-- A signed result of `w` bits; `none` is an overflow. -/
def checked (w : ℕ) (x : ℤ) : Option ℤ := if InSigned w x then some x else none

/-- An unsigned result of `w` bits; `none` is a wrap-around. -/
def checkedU (w : ℕ) (x : ℤ) : Option ℤ := if 0 ≤ x ∧ x < 2 ^ w then some x else none

theorem checked_of_inSigned (h : InSigned w x) : checked w x = some x := if_pos h

theorem checked_eq_some {y : ℤ} : checked w x = some y ↔ InSigned w x ∧ y = x := by
  unfold checked
  split
  case isTrue h => simp [h, eq_comm]
  case isFalse h => simp [h]

theorem checkedU_of_lt (h0 : 0 ≤ x) (hlt : x < 2 ^ w) : checkedU w x = some x := if_pos ⟨h0, hlt⟩

end Schemes
