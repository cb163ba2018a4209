import ThreadManager.Clock.WaitRelative

/-! `DurationTimer`: `addToTimeval`, and the duration between two times.

    A `timeval` is one number of microseconds in two fields. `addToTimeval` normalises in three places
    and never leaves more than one carry; what comes out is the quotient and the remainder of the sum.
    `subtractTimevals` puts each time together in a `long long` before it subtracts. A time may be too
    large for that; the sums then wrap around, as they do on the machines the code is built for, and
    the difference is right all the same, as long as it fits itself. -/

namespace ThreadManager
open Schemes

/-- `struct timeval`. -/
structure Timeval where
  tvSec : ℤ
  tvUsec : ℤ
deriving DecidableEq, Repr

namespace Timeval

/-- The fields are values of their types. -/
def Fits (tv : Timeval) (p : Platform) : Prop :=
  InSigned p.timeWidth tv.tvSec ∧ InSigned p.longWidth tv.tvUsec

/-- The time denoted, in microseconds. -/
def micros (tv : Timeval) : ℤ := tv.tvSec * 1000000 + tv.tvUsec

def Normalised (tv : Timeval) : Prop := 0 ≤ tv.tvUsec ∧ tv.tvUsec < 1000000

instance (tv : Timeval) (p : Platform) : Decidable (tv.Fits p) := inferInstanceAs (Decidable (_ ∧ _))

instance (tv : Timeval) : Decidable tv.Normalised := inferInstanceAs (Decidable (_ ∧ _))

end Timeval

/-- `sec += n` for a `time_t` and a `long`, computed in the wider type. -/
def addSeconds (p : Platform) (sec n : ℤ) : Option ℤ :=
  (checked (max p.longWidth p.timeWidth) (sec + n)).map (signed p.timeWidth)

/-- The two times of a `DurationTimer`. -/
structure DurationTimer where
  mStartWhen : Timeval
  mStopWhen : Timeval
deriving DecidableEq, Repr

namespace DurationTimer

/-- The normalisation at the beginning of `addToTimeval`. -/
def normalizeUsec (p : Platform) (tv : Timeval) : Option Timeval :=
  if tv.tvUsec ≥ 1000000 then do
    let tvSec ← addSeconds p tv.tvSec (tv.tvUsec.tdiv 1000000)
    return ⟨tvSec, tv.tvUsec.tmod 1000000⟩
  else return tv

/-- The carry after the microseconds have been added. -/
def carryUsec (p : Platform) (tv : Timeval) : Option Timeval :=
  if tv.tvUsec ≥ 1000000 then do
    let tvUsec ← checked p.longWidth (tv.tvUsec - 1000000)
    let tvSec ← checked p.timeWidth (tv.tvSec + 1)
    return ⟨tvSec, tvUsec⟩
  else return tv

/-- `DurationTimer::addToTimeval`; a negative `usec` is logged and ignored. -/
def addToTimeval (p : Platform) (tv : Timeval) (usec : ℤ) : Option Timeval :=
  if usec < 0 then some tv
  else do
    let tv ← normalizeUsec p tv
    let tvUsec ← checked p.longWidth (tv.tvUsec + usec.tmod 1000000)
    let tv ← carryUsec p { tv with tvUsec }
    let tvSec ← addSeconds p tv.tvSec (usec.tdiv 1000000)
    return { tv with tvSec }

/-- One of the two sums of `subtractTimevals`, in a `long long`, which wraps around. -/
def longMicros (tv : Timeval) : ℤ := signed 64 (signed 64 (tv.tvSec * 1000000) + tv.tvUsec)

/-- `DurationTimer::subtractTimevals`. -/
def subtractTimevals (tv1 tv2 : Timeval) : ℤ := signed 64 (longMicros tv1 - longMicros tv2)

/-- `DurationTimer::durationUsecs`, with its cast to `long`. -/
def durationUsecs (p : Platform) (d : DurationTimer) : ℤ :=
  signed p.longWidth (subtractTimevals d.mStopWhen d.mStartWhen)

variable {p : Platform} {tv : Timeval} {sec usec n a b : ℤ}

/-! ### The three places where `addToTimeval` normalises -/

theorem addSeconds_eq (h : InSigned p.timeWidth (sec + n)) : addSeconds p sec n = some (sec + n) := by
  rw [addSeconds, checked_of_inSigned (h.mono (le_max_right _ _)), Option.map_some,
    signed_of_inSigned h]

theorem normalizeUsec_eq (husec : 0 ≤ tv.tvUsec)
    (hsec : InSigned p.timeWidth (tv.tvSec + tv.tvUsec / 1000000)) :
    normalizeUsec p tv = some ⟨tv.tvSec + tv.tvUsec / 1000000, tv.tvUsec % 1000000⟩ := by
  unfold normalizeUsec
  by_cases h : tv.tvUsec ≥ 1000000
  · rw [if_pos h, Int.tdiv_eq_ediv_of_nonneg husec, addSeconds_eq hsec,
      Int.tmod_eq_emod_of_nonneg husec]
    rfl
  · have hdiv : tv.tvUsec / 1000000 = 0 := by omega
    have hmod : tv.tvUsec % 1000000 = tv.tvUsec := by omega
    rw [if_neg h, hdiv, hmod, add_zero]
    rfl

theorem carryUsec_eq (husec : 0 ≤ usec) (hlt : usec < 2000000)
    (hsec : InSigned p.timeWidth (sec + usec / 1000000)) :
    carryUsec p ⟨sec, usec⟩ = some ⟨sec + usec / 1000000, usec % 1000000⟩ := by
  unfold carryUsec
  by_cases h : usec ≥ 1000000
  · have hdiv : usec / 1000000 = 1 := by omega
    have hmod : usec % 1000000 = usec - 1000000 := by omega
    have hfit := p.inSigned_nsec (x := usec - 1000000) (by omega) (by omega)
    rw [hdiv] at hsec
    rw [if_pos h, hdiv, hmod]
    simp only [checked_of_inSigned hfit, checked_of_inSigned hsec]
    rfl
  · have hdiv : usec / 1000000 = 0 := by omega
    have hmod : usec % 1000000 = usec := by omega
    rw [if_neg h, hdiv, hmod, add_zero]
    rfl

/-- The new time is the quotient and the remainder of the sum. -/
theorem addToTimeval_eq (hsec : InSigned p.timeWidth tv.tvSec) (husec : 0 ≤ tv.tvUsec) (h : 0 ≤ n)
    (hsum : InSigned p.timeWidth ((tv.micros + n) / 1000000)) :
    addToTimeval p tv n = some ⟨(tv.micros + n) / 1000000, (tv.micros + n) % 1000000⟩ := by
  unfold Timeval.micros at hsum ⊢
  have hfit := p.inSigned_nsec (x := tv.tvUsec % 1000000 + n % 1000000) (by omega) (by omega)
  -- every value `tv_sec` has on the way lies between the first and the last one
  have hnorm := normalizeUsec_eq (p := p) husec (hsec.between hsum (by omega) (by omega))
  have hcarry : carryUsec p ⟨tv.tvSec + tv.tvUsec / 1000000,
      tv.tvUsec % 1000000 + n % 1000000⟩ = _ :=
    carryUsec_eq (by omega) (by omega) (hsec.between hsum (by omega) (by omega))
  have hdiv : tv.tvSec + tv.tvUsec / 1000000 + (tv.tvUsec % 1000000 + n % 1000000) / 1000000 +
      n / 1000000 = (tv.tvSec * 1000000 + tv.tvUsec + n) / 1000000 := by omega
  have hmod : (tv.tvUsec % 1000000 + n % 1000000) % 1000000 =
      (tv.tvSec * 1000000 + tv.tvUsec + n) % 1000000 := by omega
  rw [← hdiv] at hsum
  rw [addToTimeval, if_neg (not_lt.mpr h), hnorm]
  simp only [Option.bind_eq_bind, Option.bind_some, Int.tmod_eq_emod_of_nonneg h,
    Int.tdiv_eq_ediv_of_nonneg h]
  rw [checked_of_inSigned hfit, Option.bind_some, hcarry, Option.bind_some, addSeconds_eq hsum,
    Option.bind_some, hdiv, hmod]
  rfl

theorem addToTimeval_neg (h : n < 0) : addToTimeval p tv n = some tv := if_pos h

/-! ### What a `DurationTimer` makes of the two times -/

theorem longMicros_eq (tv : Timeval) : longMicros tv = signed 64 tv.micros := by
  rw [longMicros, signed_add_left, Timeval.micros]

theorem subtractTimevals_eq (tv1 tv2 : Timeval) :
    subtractTimevals tv1 tv2 = signed 64 (tv1.micros - tv2.micros) := by
  rw [subtractTimevals, longMicros_eq, longMicros_eq, signed_sub]

/-- A difference that fits a `long` is what is measured. -/
theorem durationUsecs_eq {d : DurationTimer} (hn : InSigned p.longWidth n)
    (hdiff : d.mStopWhen.micros - d.mStartWhen.micros = n) : d.durationUsecs p = n := by
  rw [durationUsecs, subtractTimevals_eq, hdiff, signed_of_inSigned (hn.mono p.long_le),
    signed_of_inSigned hn]

/-- Nothing wraps around in a measurement. -/
def NoWrap (d : DurationTimer) : Prop := ∀ tv ∈ [d.mStopWhen, d.mStartWhen],
  InSigned 64 (tv.tvSec * 1000000) ∧ InSigned 64 tv.micros

/-- That is so exactly if neither the old time nor the one `n` microseconds later leaves a `long long` of
    microseconds. -/
theorem noWrap_iff {new : Timeval} (husec : 0 ≤ tv.tvUsec) (h : 0 ≤ n) (hnew : new.Normalised)
    (hsum : new.micros = tv.micros + n) :
    NoWrap ⟨tv, new⟩ ↔ -(2 ^ 63) ≤ tv.tvSec * 1000000 ∧ tv.micros + n < 2 ^ 63 := by
  obtain ⟨hpos, hlt⟩ := hnew
  simp only [NoWrap, List.forall_mem_cons, List.not_mem_nil, false_imp_iff, implies_true, and_true]
  unfold InSigned
  unfold Timeval.micros at hsum ⊢
  omega

/-! ### Adding time and measuring it -/

/-- What adding `n` microseconds, not a negative number, does: the new time is normalised, measures
    `n` from the old one, and is also reached in two steps. -/
structure Adds (p : Platform) (tv : Timeval) (n : ℤ) : Prop where
  measured : ∃ new, addToTimeval p tv n = some new ∧ new.Normalised ∧
    durationUsecs p ⟨tv, new⟩ = n
  twice : ∀ a b, 0 ≤ a → 0 ≤ b → a + b = n →
    ((addToTimeval p tv a).bind fun tv => addToTimeval p tv b) = addToTimeval p tv n

theorem addToTimeval_twice (hsec : InSigned p.timeWidth tv.tvSec) (husec : 0 ≤ tv.tvUsec)
    (ha : 0 ≤ a) (hb : 0 ≤ b) (hsum : InSigned p.timeWidth ((tv.micros + (a + b)) / 1000000)) :
    ((addToTimeval p tv a).bind fun tv => addToTimeval p tv b) = addToTimeval p tv (a + b) := by
  have hfirst : InSigned p.timeWidth ((tv.micros + a) / 1000000) := by
    refine hsec.between hsum ?_ (by omega)
    unfold Timeval.micros
    omega
  have hmicros : Timeval.micros ⟨(tv.micros + a) / 1000000, (tv.micros + a) % 1000000⟩ + b =
      tv.micros + (a + b) := by
    simp only [Timeval.micros]
    omega
  have hsecond : addToTimeval p ⟨(tv.micros + a) / 1000000, (tv.micros + a) % 1000000⟩ b = _ :=
    addToTimeval_eq hfirst (Int.emod_nonneg _ (by decide)) hb (by rw [hmicros]; exact hsum)
  rw [hmicros] at hsecond
  rw [addToTimeval_eq hsec husec ha hfirst, Option.bind_some, hsecond,
    addToTimeval_eq hsec husec (by omega) hsum]

/-- For every time whose microseconds are not negative: adding and measuring agree for every number
    of microseconds that is not negative and leaves `tv_sec` in range, and a negative one is ignored. -/
theorem addToTimeval_measured (htv : tv.Fits p) (husec : 0 ≤ tv.tvUsec) :
    (∀ n, 0 ≤ n → InSigned p.longWidth n → InSigned p.timeWidth ((tv.micros + n) / 1000000) →
      Adds p tv n) ∧ ∀ n < 0, addToTimeval p tv n = some tv := by
  constructor
  · intro n h hn hsum
    have hrun := addToTimeval_eq htv.1 husec h hsum
    have hnorm : Timeval.Normalised ⟨(tv.micros + n) / 1000000, (tv.micros + n) % 1000000⟩ :=
      ⟨Int.emod_nonneg _ (by decide), Int.emod_lt_of_pos _ (by decide)⟩
    refine ⟨⟨_, hrun, hnorm, durationUsecs_eq hn ?_⟩, ?_⟩
    · exact sub_eq_iff_eq_add'.mpr (Int.ediv_mul_add_emod _ _)
    · rintro a b ha hb rfl
      exact addToTimeval_twice htv.1 husec ha hb hsum
  · intro n h
    exact addToTimeval_neg h

/-- One and a half seconds, not normalised, and 700 ms more; and one second and `LONG_MAX`
    microseconds, which wraps around. -/
theorem addToTimeval_measured_unnormalised : Timeval.Fits ⟨0, 1500000⟩ ilp32 ∧
    Adds ilp32 ⟨0, 1500000⟩ 700000 ∧
    addToTimeval ilp32 ⟨0, 1500000⟩ (-5) = some ⟨0, 1500000⟩ ∧
    Timeval.Fits ⟨1, 0⟩ lp64 ∧ Adds lp64 ⟨1, 0⟩ (2 ^ 63 - 1) := by
  have hfits : Timeval.Fits ⟨0, 1500000⟩ ilp32 := by decide
  have hfits' : Timeval.Fits ⟨1, 0⟩ lp64 := by decide
  obtain ⟨hadds, hneg⟩ := addToTimeval_measured hfits (by decide)
  exact ⟨hfits, hadds 700000 (by decide) (by decide) (by decide), hneg (-5) (by decide), hfits',
    (addToTimeval_measured hfits' (by decide)).1 _ (by decide) (by decide) (by decide)⟩

end DurationTimer

end ThreadManager
