import ThreadManager.Clock.Timers
import ThreadManager.Message.MessageQueue

/-! The timeout `MessageQueue::next` polls with when the first message is not due.

    `pollOnce` takes milliseconds. `next` gives it the nanoseconds to the due time, narrowed to 32 bits
    before the comparison with `MAX_VALUE`, which is then without effect. What comes out is the right
    number of milliseconds for about one difference in `2 ^ 32`. -/

namespace ThreadManager
open Schemes

namespace MessageQueue

variable {s s' : MessageQueue} {a : Addr} {now d t : ℤ} {r : NextResult}

/-- The timeout is not negative, is the time to `due` in milliseconds, rounded up and capped, and ends
    less than a millisecond after `due`. -/
structure SleepsUntil (now due t : ℤ) : Prop where
  nonneg : 0 ≤ t
  eq_min : t = min (millis (due - now)) maxValue
  not_late : now + t * 1000000 < due + 1000000

/-- The differences that `next` gets right. Up to `MAX_VALUE` milliseconds there is one, and in rare
    cases there are two, for each multiple of `2 ^ 32`; beyond, the low 32 bits must be those of
    `MAX_VALUE`. -/
def SleepExact (d : ℤ) : Prop :=
  (d ≤ maxValue * 1000000 ∧ ∃ k, 0 ≤ k ∧
    (d = k * 2 ^ 32 + k * 2 ^ 32 / 999999 + 1 ∨
      k * 2 ^ 32 % 999999 = 0 ∧ d = k * 2 ^ 32 + k * 2 ^ 32 / 999999)) ∨
  (maxValue * 1000000 < d ∧ d % 2 ^ 32 = maxValue)

/-- The comparison with `MAX_VALUE` comes too late to cap anything. -/
theorem min_signed_maxValue (d : ℤ) : min (signed 32 d) maxValue = signed 32 d := by
  have hfit := inSigned_signed 32 d
  unfold InSigned at hfit
  refine min_eq_left ?_
  unfold maxValue
  omega

/-- Solving for the differences whose narrowed nanoseconds are their milliseconds. -/
theorem signed_eq_millis_iff (hd : 0 < d) :
    signed 32 d = min (millis d) maxValue ↔ SleepExact d := by
  have hpos : 0 < millis d := millis_pos hd
  have hfit : InSigned 32 (min (millis d) maxValue) := by
    unfold InSigned maxValue
    omega
  rw [signed_eq_iff hfit]
  unfold SleepExact maxValue
  rcases le_or_gt d (0x7FFFFFFF * 1000000) with hcap | hcap
  · rw [min_eq_left (millis_le_iff.mpr hcap), millis_eq]
    constructor
    · rintro ⟨k, hk⟩
      refine Or.inl ⟨hcap, k, ?_, ?_⟩
      · omega
      · omega
    · rintro (⟨-, k, -, h | ⟨hzero, h⟩⟩ | ⟨hlt, -⟩)
      · refine ⟨k, ?_⟩
        omega
      · refine ⟨k, ?_⟩
        omega
      · omega
  · have hge : 0x7FFFFFFF ≤ millis d := by
      rw [millis_eq]
      omega
    rw [min_eq_right hge]
    omega

/-- A capped number of milliseconds is a sleep until due. -/
theorem sleepsUntil_min {due : ℤ} (h : now < due) :
    SleepsUntil now due (min (millis (due - now)) maxValue) := by
  have hpos : 0 < millis (due - now) := millis_pos (sub_pos.mpr h)
  have hle := min_le_left (millis (due - now)) maxValue
  refine ⟨?_, rfl, ?_⟩
  · unfold maxValue
    omega
  · have heq := millis_eq (due - now)
    omega

/-- With a first message that is not due, the timeout `next` polls with is right exactly for the
    differences above. -/
theorem sleep_time_when (hhead : s.mInboundQueue.head = some a) (hdue : now < s.stamp a)
    (hrun : s.nextLocked now = .done (r, s')) :
    (∃ t, r = .again t ∧ SleepsUntil now (s.stamp a) t) ↔ SleepExact (s.stamp a - now) := by
  have hr : r = .again (signed 32 (s.stamp a - now)) := by
    rcases nextLocked_cases hrun with ⟨hnone, -, -⟩ | ⟨b, q, hb, -, -, hres⟩
    · exact absurd (hhead.symm.trans hnone) (Option.some_ne_none a)
    · obtain rfl := Option.some.inj (hhead.symm.trans hb)
      rcases hres with ⟨-, hr, -⟩ | ⟨hge, -, -⟩
      · rw [hr, min_signed_maxValue]
      · exact absurd hdue (not_lt.mpr hge)
  rw [← signed_eq_millis_iff (sub_pos.mpr hdue)]
  constructor
  · rintro ⟨t, ht, hsleep⟩
    obtain rfl := NextResult.again.inj (hr.symm.trans ht)
    exact hsleep.eq_min
  · intro heq
    rw [hr, heq]
    exact ⟨_, rfl, sleepsUntil_min hdue⟩

/-- A queue with the one message 0, due at `due`. -/
def oneMessage (due : ℤ) : MessageQueue :=
  ⟨⟨fun a => [due][a]?.map (Message.createMessage (some 0)), some 0, some 0⟩, pipe⟩

/-- A message that is due in one nanosecond is slept for one millisecond. -/
theorem sleep_time_one : ∃ r s', (oneMessage 1).nextLocked 0 = .done (r, s') ∧
    ∃ t, r = .again t ∧ SleepsUntil 0 ((oneMessage 1).stamp 0) t :=
  ⟨.again 1, _, rfl, (sleep_time_when (a := 0) rfl (by decide) rfl).mpr
    (Or.inl ⟨by decide, 0, by decide, Or.inl (by decide)⟩)⟩

/-- A message due in 2 ms is slept for 2000 s, and one due in `2 ^ 31` ns for ever. -/
theorem sleep_time_long :
    (∃ s', (oneMessage 2000000).nextLocked 0 = .done (.again 2000000, s') ∧
      ¬SleepsUntil 0 ((oneMessage 2000000).stamp 0) 2000000) ∧
    ∃ s', (oneMessage (2 ^ 31)).nextLocked 0 = .done (.again (-2 ^ 31), s') ∧
      ¬SleepsUntil 0 ((oneMessage (2 ^ 31)).stamp 0) (-2 ^ 31) := by
  refine ⟨⟨_, rfl, ?_⟩, _, rfl, ?_⟩
  · intro h
    exact absurd h.not_late (by decide)
  · intro h
    exact absurd h.nonneg (by decide)

end MessageQueue

end ThreadManager
