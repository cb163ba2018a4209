import ThreadManager.Schemes.Width

/-! `Condition::waitRelative` in the build without `HAVE_PTHREAD_COND_TIMEDWAIT_RELATIVE`.

    The code adds `reltime` to a reading of the clock and hands the sum to `pthread_cond_timedwait`.
    Division and remainder truncate towards zero, so a negative `reltime` has a negative remainder;
    the code carries a second when the nanoseconds reach one, and never borrows one. -/

namespace ThreadManager
open Schemes

/-- `struct timespec`. -/
structure Timespec where
  tvSec : ℤ
  tvNsec : ℤ
deriving DecidableEq, Repr

/-- The widths of `long` and `time_t`; `nsecs_t` has 64 bits everywhere. -/
structure Platform where
  longWidth : ℕ
  timeWidth : ℕ
  long_ge : 32 ≤ longWidth
  long_le : longWidth ≤ 64
  time_le : timeWidth ≤ 64

/-- `Condition::waitRelative`, from the clock reading `ts` to the deadline it waits for. The sums with
    an `nsecs_t` are computed in 64 bits and narrowed by the assignment. -/
def waitRelative (p : Platform) (ts : Timespec) (reltime : ℤ) : Option Timespec := do
  let tvSec ← checked 64 (ts.tvSec + reltime.tdiv 1000000000)
  let tvNsec ← checked 64 (ts.tvNsec + reltime.tmod 1000000000)
  let ts : Timespec := ⟨signed p.timeWidth tvSec, signed p.longWidth tvNsec⟩
  if ts.tvNsec ≥ 1000000000 then
    let tvNsec ← checked p.longWidth (ts.tvNsec - 1000000000)
    let tvSec ← checked p.timeWidth (ts.tvSec + 1)
    return ⟨tvSec, tvNsec⟩
  else return ts

/-- The time denoted, in nanoseconds. -/
def Timespec.nanos (ts : Timespec) : ℤ := ts.tvSec * 1000000000 + ts.tvNsec

def Timespec.Normalised (ts : Timespec) : Prop := 0 ≤ ts.tvNsec ∧ ts.tvNsec < 1000000000

instance (ts : Timespec) : Decidable ts.Normalised := inferInstanceAs (Decidable (_ ∧ _))

variable {p : Platform} {now : Timespec} {reltime : ℤ}

/-- Quotient and remainder of a time that is not negative. -/
theorem tdiv_tmod_nonneg (h : 0 ≤ reltime) :
    0 ≤ reltime.tdiv 1000000000 ∧ 0 ≤ reltime.tmod 1000000000 ∧
      reltime.tmod 1000000000 < 1000000000 :=
  ⟨Int.tdiv_nonneg h (by decide), Int.tmod_nonneg _ h, Int.tmod_lt_of_pos _ (by decide)⟩

/-- Of a negative one both are taken of the absolute value and negated. -/
theorem tdiv_tmod_neg (h : reltime < 0) :
    reltime.tdiv 1000000000 ≤ 0 ∧ reltime.tmod 1000000000 = -(-reltime % 1000000000) := by
  have hpos : 0 ≤ -reltime := by omega
  have hdiv : (-reltime).tdiv 1000000000 = -reltime.tdiv 1000000000 := Int.neg_tdiv ..
  have hmod : (-reltime).tmod 1000000000 = -reltime.tmod 1000000000 := Int.neg_tmod ..
  have hge := Int.tdiv_nonneg hpos (b := 1000000000) (by decide)
  rw [Int.tmod_eq_emod_of_nonneg hpos] at hmod
  omega

/-- A deadline that is normalised and denotes `reltime` after `now`. -/
def IsDeadline (now : Timespec) (reltime : ℤ) (ts : Timespec) : Prop :=
  ts.Normalised ∧ ts.nanos = now.nanos + reltime

theorem isDeadline_mk {sec nsec : ℤ} : IsDeadline now reltime ⟨sec, nsec⟩ ↔
    (0 ≤ nsec ∧ nsec < 1000000000) ∧
      sec * 1000000000 + nsec = now.tvSec * 1000000000 + now.tvNsec + reltime :=
  Iff.rfl

/-! ### The three cases of the sum -/

/-- A sum of two nanosecond parts fits even a `long` of 32 bits. -/
theorem Platform.inSigned_nsec {x : ℤ} (p : Platform) (hge : -1000000000 ≤ x)
    (hlt : x < 2000000000) : InSigned p.longWidth x := by
  have h32 : InSigned 32 x := by unfold InSigned; omega
  exact h32.mono p.long_ge

/-- Without a carry both fields are plain sums, of whatever sign the nanoseconds are. -/
theorem waitRelative_plain
    (hsec : InSigned p.timeWidth (now.tvSec + reltime.tdiv 1000000000))
    (hge : -1000000000 ≤ now.tvNsec + reltime.tmod 1000000000)
    (hlt : now.tvNsec + reltime.tmod 1000000000 < 1000000000) :
    waitRelative p now reltime =
      some ⟨now.tvSec + reltime.tdiv 1000000000, now.tvNsec + reltime.tmod 1000000000⟩ := by
  have hnsec := p.inSigned_nsec hge (by omega)
  rw [waitRelative, checked_of_inSigned (hsec.mono p.time_le),
    checked_of_inSigned (hnsec.mono p.long_le)]
  simp only [Option.bind_eq_bind, Option.bind_some]
  rw [signed_of_inSigned hsec, signed_of_inSigned hnsec, if_neg (by omega)]
  rfl

theorem waitRelative_carry
    (hsec : InSigned p.timeWidth (now.tvSec + reltime.tdiv 1000000000))
    (hsec' : InSigned p.timeWidth (now.tvSec + reltime.tdiv 1000000000 + 1))
    (hge : 1000000000 ≤ now.tvNsec + reltime.tmod 1000000000)
    (hlt : now.tvNsec + reltime.tmod 1000000000 < 2000000000) :
    waitRelative p now reltime =
      some ⟨now.tvSec + reltime.tdiv 1000000000 + 1,
        now.tvNsec + reltime.tmod 1000000000 - 1000000000⟩ := by
  have hnsec := p.inSigned_nsec (by omega) hlt
  have hrest := p.inSigned_nsec (x := now.tvNsec + reltime.tmod 1000000000 - 1000000000)
    (by omega) (by omega)
  rw [waitRelative, checked_of_inSigned (hsec.mono p.time_le),
    checked_of_inSigned (hnsec.mono p.long_le)]
  simp only [Option.bind_eq_bind, Option.bind_some]
  rw [signed_of_inSigned hsec, signed_of_inSigned hnsec, if_pos hge, checked_of_inSigned hrest,
    Option.bind_some, checked_of_inSigned hsec', Option.bind_some]
  rfl

/-! ### When the deadline is right -/

/-- The deadline is normalised and exact unless a second has to be borrowed: for a negative `reltime`
    the nanoseconds of the clock must cover those of `reltime`. -/
theorem waitRelative_deadline_when (hnow : now.Normalised) (hsec : InSigned p.timeWidth now.tvSec)
    (hsum : InSigned p.timeWidth ((now.nanos + reltime) / 1000000000)) :
    (∃ ts, waitRelative p now reltime = some ts ∧ IsDeadline now reltime ts) ↔
      0 ≤ reltime ∨ -reltime % 1000000000 ≤ now.tvNsec := by
  obtain ⟨hnsec, hnsec'⟩ := hnow
  have hsplit := Int.tmod_add_tdiv_mul reltime 1000000000
  unfold Timespec.nanos at hsum
  rcases le_or_gt 0 reltime with hpos | hneg
  · obtain ⟨hq, hr, hr'⟩ := tdiv_tmod_nonneg hpos
    refine iff_of_true ?_ (Or.inl hpos)
    rcases lt_or_ge (now.tvNsec + reltime.tmod 1000000000) 1000000000 with hlt | hge
    · have hdiv : (now.tvSec * 1000000000 + now.tvNsec + reltime) / 1000000000 =
          now.tvSec + reltime.tdiv 1000000000 := by omega
      rw [hdiv] at hsum
      refine ⟨_, waitRelative_plain hsum (by omega) hlt, ?_⟩
      rw [isDeadline_mk]
      omega
    · have hdiv : (now.tvSec * 1000000000 + now.tvNsec + reltime) / 1000000000 =
          now.tvSec + reltime.tdiv 1000000000 + 1 := by omega
      rw [hdiv] at hsum
      have hsum' : InSigned p.timeWidth (now.tvSec + reltime.tdiv 1000000000) :=
        hsec.between hsum (by omega) (by omega)
      refine ⟨_, waitRelative_carry hsum' hsum hge (by omega), ?_⟩
      rw [isDeadline_mk]
      omega
  · obtain ⟨hq, hr⟩ := tdiv_tmod_neg hneg
    have hfit : InSigned p.timeWidth (now.tvSec + reltime.tdiv 1000000000) :=
      hsum.between hsec (by omega) (by omega)
    have hrun := waitRelative_plain hfit (by omega) (by omega)
    constructor
    · -- a borrow leaves the nanoseconds negative
      rintro ⟨ts, hts, hdead⟩
      obtain rfl := Option.some.inj (hrun.symm.trans hts)
      obtain ⟨⟨hnonneg, -⟩, -⟩ := isDeadline_mk.mp hdead
      omega
    · intro hcond
      refine ⟨_, hrun, ?_⟩
      rw [isDeadline_mk]
      omega

/-- `long` and `time_t` of 32 bits. -/
def ilp32 : Platform := ⟨32, 32, by decide, by decide, by decide⟩

/-- `long` and `time_t` of 64 bits. -/
def lp64 : Platform := ⟨64, 64, by decide, by decide, by decide⟩

/-- Half a second before a time in the second half of a second, and one and a half seconds after it. -/
theorem waitRelative_deadline_within :
    (∃ ts, waitRelative ilp32 ⟨1000, 700000000⟩ (-500000000) = some ts ∧
      IsDeadline ⟨1000, 700000000⟩ (-500000000) ts) ∧
    ∃ ts, waitRelative ilp32 ⟨1000, 700000000⟩ 1500000000 = some ts ∧
      IsDeadline ⟨1000, 700000000⟩ 1500000000 ts :=
  ⟨(waitRelative_deadline_when (by decide) (by decide) (by decide)).mpr (by decide),
    (waitRelative_deadline_when (by decide) (by decide) (by decide)).mpr (by decide)⟩

/-- One nanosecond before a full second. -/
theorem waitRelative_no_borrow : waitRelative ilp32 ⟨1000, 0⟩ (-1) = some ⟨1000, -1⟩ ∧
    ¬∃ ts, waitRelative ilp32 ⟨1000, 0⟩ (-1) = some ts ∧ IsDeadline ⟨1000, 0⟩ (-1) ts := by
  refine ⟨by decide, ?_⟩
  rintro ⟨ts, hts, ⟨hnorm, -⟩, -⟩
  obtain rfl : (⟨1000, -1⟩ : Timespec) = ts := Option.some.inj (Eq.trans (by decide) hts)
  exact absurd hnorm (by decide)

end ThreadManager
