import Mathlib.Data.Rat.Floor
import ThreadManager.Schemes.Width

/-! `toMillisecondTimeoutDelay` of Timers.cpp.

    Times are `nsecs_t`, 64 bit numbers of nanoseconds; a poll timeout is an `int` of milliseconds in
    which a negative value means forever. The header promises the difference rounded up, and -1 only
    for a timeout more than `INT_MAX` milliseconds away. The code draws that line one millisecond
    earlier, and is right everywhere else. -/

namespace ThreadManager
open Schemes

/-- `INT_MAX` of an `int` of 32 bits. -/
def intMax : ℤ := 0x7FFFFFFF

/-- `milliseconds_to_nanoseconds`. -/
def millisecondsToNanoseconds (secs : ℤ) : Option ℤ := checked 64 (secs * 1000000)

/-- `toMillisecondTimeoutDelay`. -/
def toMillisecondTimeoutDelay (referenceTime timeoutTime : ℤ) : Option ℤ :=
  if timeoutTime > referenceTime then do
    let difference ← checked 64 (timeoutTime - referenceTime)
    let timeoutDelay ← checkedU 64 difference
    if timeoutDelay > (intMax - 1) * 1000000 then return -1
    else
      let roundedUp ← checkedU 64 (timeoutDelay + 999999)
      checked 32 (roundedUp / 1000000)
  else return 0

/-- A duration in nanoseconds as whole milliseconds, rounded up. -/
def millis (d : ℤ) : ℤ := ⌈(d : ℚ) / 1000000⌉

variable {referenceTime timeoutTime d : ℤ}

theorem millis_eq (d : ℤ) : millis d = (d + 999999) / 1000000 := by
  have h := Rat.ceil_intCast_div_natCast d 1000000
  push_cast at h
  rw [millis, h]
  omega

/-- A timeout of `millis d` is the shortest one that does not end before `d`. -/
theorem millis_le_iff {t : ℤ} : millis d ≤ t ↔ d ≤ t * 1000000 := by
  rw [millis_eq]
  omega

theorem millis_pos (hd : 0 < d) : 0 < millis d := by
  rw [millis_eq]
  omega

/-! ### What the function computes -/

theorem toMillisecondTimeoutDelay_past (h : timeoutTime ≤ referenceTime) :
    toMillisecondTimeoutDelay referenceTime timeoutTime = some 0 :=
  if_neg (not_lt.mpr h)

/-- Up to `INT_MAX - 1` milliseconds the difference is rounded up. -/
theorem toMillisecondTimeoutDelay_near (h : referenceTime < timeoutTime)
    (hle : timeoutTime - referenceTime ≤ (intMax - 1) * 1000000) :
    toMillisecondTimeoutDelay referenceTime timeoutTime =
      some (millis (timeoutTime - referenceTime)) := by
  have hbound : timeoutTime - referenceTime ≤ 2147483646000000 := hle
  have h64 : InSigned 64 (timeoutTime - referenceTime) := by unfold InSigned; omega
  have h32 : InSigned 32 ((timeoutTime - referenceTime + 999999) / 1000000) := by
    unfold InSigned
    omega
  rw [toMillisecondTimeoutDelay, if_pos h, checked_of_inSigned h64, millis_eq]
  simp only [Option.bind_eq_bind, Option.bind_some]
  rw [checkedU_of_lt (by omega) (by omega), Option.bind_some, if_neg (not_lt.mpr hle),
    checkedU_of_lt (by omega) (by omega), Option.bind_some, checked_of_inSigned h32]

/-- Beyond that it is taken for infinite. -/
theorem toMillisecondTimeoutDelay_far (hfit : InSigned 64 (timeoutTime - referenceTime))
    (hlt : (intMax - 1) * 1000000 < timeoutTime - referenceTime) :
    toMillisecondTimeoutDelay referenceTime timeoutTime = some (-1) := by
  have hbound : 2147483646000000 < timeoutTime - referenceTime := hlt
  have hrange := hfit
  unfold InSigned at hrange
  rw [toMillisecondTimeoutDelay, if_pos (by omega), checked_of_inSigned hfit]
  simp only [Option.bind_eq_bind, Option.bind_some]
  rw [checkedU_of_lt (by omega) (by omega), Option.bind_some, if_pos hlt]
  rfl

/-! ### The contract of the header -/

/-- No intermediate value overflows and the result is 0 for a timeout that is not in the future, -1
    for one more than `INT_MAX` milliseconds away, and the difference rounded up in between. -/
def DelayContract (referenceTime timeoutTime : ℤ) : Prop :=
  ∃ r, toMillisecondTimeoutDelay referenceTime timeoutTime = some r ∧
    (r = 0 ↔ timeoutTime ≤ referenceTime) ∧
    (r = -1 ↔ intMax * 1000000 < timeoutTime - referenceTime) ∧
    (r ≠ 0 → r ≠ -1 → r = millis (timeoutTime - referenceTime) ∧ r ≤ intMax)

/-- The contract is met exactly outside of the millisecond that ends `INT_MAX` milliseconds after the
    reference time. -/
theorem delay_contract_when (hfit : InSigned 64 (timeoutTime - referenceTime)) :
    DelayContract referenceTime timeoutTime ↔
      ¬((intMax - 1) * 1000000 < timeoutTime - referenceTime ∧
        timeoutTime - referenceTime ≤ intMax * 1000000) := by
  rcases le_or_gt timeoutTime referenceTime with hpast | hfuture
  · refine iff_of_true ⟨0, toMillisecondTimeoutDelay_past hpast, ?_⟩ ?_
    · unfold intMax
      omega
    · unfold intMax
      omega
  · rcases le_or_gt (timeoutTime - referenceTime) ((intMax - 1) * 1000000) with hnear | hfar
    · have hpos : 0 < millis (timeoutTime - referenceTime) := millis_pos (sub_pos.mpr hfuture)
      have hle : millis (timeoutTime - referenceTime) ≤ intMax - 1 := millis_le_iff.mpr hnear
      refine iff_of_true ⟨_, toMillisecondTimeoutDelay_near hfuture hnear, ?_, ?_, ?_⟩ ?_
      · omega
      · unfold intMax at hnear ⊢
        omega
      · intro _ _
        exact ⟨rfl, by omega⟩
      · exact fun h => not_lt.mpr hnear h.1
    · have hrun := toMillisecondTimeoutDelay_far hfit hfar
      constructor
      · rintro ⟨r, hr, -, hinf, -⟩ ⟨-, hle⟩
        obtain rfl : -1 = r := Option.some.inj (hrun.symm.trans hr)
        exact absurd (hinf.mp rfl) (not_lt.mpr hle)
      · intro hband
        refine ⟨-1, hrun, ?_, ?_, ?_⟩
        · omega
        · exact iff_of_true rfl (not_le.mp fun hle => hband ⟨hfar, hle⟩)
        · exact fun _ h => absurd rfl h

/-- A timeout one and a half milliseconds away. -/
theorem delay_contract_near : InSigned 64 (2500000 - 1000000) ∧ DelayContract 1000000 2500000 :=
  ⟨by decide, (delay_contract_when (by decide)).mpr (by decide)⟩

/-- A timeout of exactly `INT_MAX` milliseconds is reported as infinite. -/
theorem delay_infinite_early : toMillisecondTimeoutDelay 0 2147483647000000 = some (-1) ∧
    ¬intMax * 1000000 < 2147483647000000 - 0 ∧ ¬DelayContract 0 2147483647000000 := by
  refine ⟨by decide, by decide, ?_⟩
  rintro ⟨r, hr, -, hinf, -⟩
  obtain rfl : -1 = r := Option.some.inj (Eq.trans (by decide) hr)
  exact absurd (hinf.mp rfl) (by decide)

end ThreadManager
