import ThreadManager.Poll.PollOnce

/-! `Poll::pollAll` over any results of `pollOnce`.

    A positive timeout is turned into a time to end at, and after each callback the rest is rounded up
    to milliseconds again. The only rest that comes out wrong is the one `toMillisecondTimeoutDelay`
    takes for infinite: a timeout of `INT_MAX` less than a millisecond after the start. -/

namespace ThreadManager
open Schemes

/-- The values of `ALOOPER_POLL_WAKE` and the others in Poll.h. -/
def PollResult.code : PollResult → ℤ
  | .wake => -1
  | .callback => -2
  | .timeout => -3
  | .error => -4

/-- What a `pollOnce` of `pollAll` returns, any `int`, and the clock reading made after it. -/
structure AllRound where
  result : ℤ
  now : ℤ
deriving DecidableEq, Repr

/-- The loop of `pollAll` with no time to end at: the same timeout again after every callback. With no
    rounds left a `pollOnce` has been called and has not returned. -/
def pollAllForever (timeoutMillis : ℤ) : List AllRound → PollTrace ℤ
  | [] => ⟨[timeoutMillis], none⟩
  | r :: rounds =>
    if r.result = PollResult.callback.code then
      let trace := pollAllForever timeoutMillis rounds
      { trace with timeouts := timeoutMillis :: trace.timeouts }
    else ⟨[timeoutMillis], some r.result⟩

/-- The loop of `pollAll` that ends at `endTime`. A round begins with the call of `pollOnce`. -/
def pollAllUntil (endTime timeoutMillis : ℤ) : List AllRound → Option (PollTrace ℤ)
  | [] => some ⟨[timeoutMillis], none⟩
  | r :: rounds =>
    if r.result ≠ PollResult.callback.code then some ⟨[timeoutMillis], some r.result⟩
    else do
      let rest ← toMillisecondTimeoutDelay r.now endTime
      if rest = 0 then return ⟨[timeoutMillis], some PollResult.timeout.code⟩
      else
        let trace ← pollAllUntil endTime rest rounds
        return { trace with timeouts := timeoutMillis :: trace.timeouts }

/-- `Poll::pollAll`, called at clock reading `start`. -/
def pollAll (start timeoutMillis : ℤ) (rounds : List AllRound) : Option (PollTrace ℤ) :=
  if timeoutMillis ≤ 0 then some (pollAllForever timeoutMillis rounds)
  else do
    let timeout ← millisecondsToNanoseconds timeoutMillis
    let endTime ← checked 64 (start + timeout)
    pollAllUntil endTime timeoutMillis rounds

variable {start endTime limit timeoutMillis : ℤ} {r : AllRound} {rounds : List AllRound}
  {trace : PollTrace ℤ}

/-- What a call that is to end at `endTime` may do: after the first timeout it passes on the rest,
    rounded up and at most `limit`; it reports no callback, and it reports the timeout at its first
    reading that is not before `endTime`. -/
structure WithinDeadline (endTime limit : ℤ) (rounds : List AllRound) (trace : PollTrace ℤ) : Prop where
  rest : List.Forall₂ (fun r t => t = millis (endTime - r.now) ∧ 1 ≤ t ∧ t ≤ limit)
    (rounds.take (trace.timeouts.length - 1)) trace.timeouts.tail
  no_callback : trace.returned ≠ some PollResult.callback.code
  at_end : ∀ before r after, rounds = before ++ r :: after →
    (∀ x ∈ before, x.result = PollResult.callback.code ∧ x.now < endTime) →
    r.result = PollResult.callback.code → endTime ≤ r.now →
    trace.returned = some PollResult.timeout.code ∧ trace.timeouts.length = before.length + 1

/-! ### One round -/

/-- Whatever the timeout is, the loop goes on after a callback. -/
theorem pollAllForever_no_callback :
    (pollAllForever timeoutMillis rounds).returned ≠ some PollResult.callback.code := by
  induction rounds with
  | nil => simp [pollAllForever]
  | cons r rounds ih =>
    by_cases hr : r.result = PollResult.callback.code
    · rw [pollAllForever, if_pos hr]
      exact ih
    · rw [pollAllForever, if_neg hr]
      simpa using hr

theorem pollAllUntil_return (h : r.result ≠ PollResult.callback.code) :
    pollAllUntil endTime timeoutMillis (r :: rounds) = some ⟨[timeoutMillis], some r.result⟩ :=
  if_pos h

theorem pollAllUntil_end (h : r.result = PollResult.callback.code) (hend : endTime ≤ r.now) :
    pollAllUntil endTime timeoutMillis (r :: rounds) =
      some ⟨[timeoutMillis], some PollResult.timeout.code⟩ := by
  rw [pollAllUntil, if_neg (not_not.mpr h), toMillisecondTimeoutDelay_past hend]
  rfl

/-- A callback before the end is followed by a `pollOnce` with the rest. -/
theorem pollAllUntil_again {rest : ℤ} (h : r.result = PollResult.callback.code)
    (hrest : toMillisecondTimeoutDelay r.now endTime = some rest) (hne : rest ≠ 0) :
    pollAllUntil endTime timeoutMillis (r :: rounds) =
      (pollAllUntil endTime rest rounds).map fun trace =>
        { trace with timeouts := timeoutMillis :: trace.timeouts } := by
  rw [pollAllUntil, if_neg (not_not.mpr h), hrest]
  simp only [Option.bind_eq_bind, Option.bind_some]
  rw [if_neg hne]
  cases pollAllUntil endTime rest rounds <;> rfl

/-- The first timeout is the one of the call. -/
theorem pollAllUntil_first (h : pollAllUntil endTime timeoutMillis rounds = some trace) :
    ∃ timeouts, trace.timeouts = timeoutMillis :: timeouts := by
  cases rounds with
  | nil =>
    cases h
    exact ⟨[], rfl⟩
  | cons r rounds =>
    by_cases hr : r.result = PollResult.callback.code
    · rw [pollAllUntil, if_neg (not_not.mpr hr)] at h
      obtain ⟨rest, -, h⟩ := Option.bind_eq_some_iff.mp h
      by_cases hrest : rest = 0
      · rw [if_pos hrest] at h
        cases h
        exact ⟨[], rfl⟩
      · rw [if_neg hrest] at h
        obtain ⟨trace', -, h⟩ := Option.bind_eq_some_iff.mp h
        cases h
        exact ⟨trace'.timeouts, rfl⟩
    · rw [pollAllUntil_return hr] at h
      cases h
      exact ⟨[], rfl⟩

theorem within_nil : WithinDeadline endTime limit [] ⟨[timeoutMillis], none⟩ where
  rest := by simp
  no_callback := by simp
  at_end := by
    intro before r after h
    simp at h

theorem within_return (h : r.result ≠ PollResult.callback.code) :
    WithinDeadline endTime limit (r :: rounds) ⟨[timeoutMillis], some r.result⟩ where
  rest := by simp
  no_callback := by simpa using h
  at_end := by
    intro before x after heq hbefore hx
    cases before with
    | nil =>
      obtain rfl := (List.cons.inj heq).1
      exact absurd hx h
    | cons y before =>
      obtain rfl := (List.cons.inj heq).1
      exact absurd (hbefore r List.mem_cons_self).1 h

theorem within_end (hend : endTime ≤ r.now) :
    WithinDeadline endTime limit (r :: rounds) ⟨[timeoutMillis], some PollResult.timeout.code⟩ where
  rest := by simp
  no_callback := by simp [PollResult.code]
  at_end := by
    intro before x after heq hbefore _ _
    cases before with
    | nil => exact ⟨rfl, rfl⟩
    | cons y before =>
      obtain rfl := (List.cons.inj heq).1
      exact absurd (hbefore r List.mem_cons_self).2 (not_lt.mpr hend)

/-- A round with a callback before the end, in front of a call that goes on with the rest. -/
theorem within_again {timeouts : List ℤ} (hlt : r.now < endTime)
    (hlimit : endTime - r.now ≤ limit * 1000000)
    (hfirst : trace.timeouts = millis (endTime - r.now) :: timeouts)
    (hwithin : WithinDeadline endTime limit rounds trace) :
    WithinDeadline endTime limit (r :: rounds)
      { trace with timeouts := timeoutMillis :: trace.timeouts } where
  rest := by
    have hrest := hwithin.rest
    rw [hfirst] at hrest ⊢
    refine List.Forall₂.cons ⟨rfl, ?_, millis_le_iff.mpr hlimit⟩ hrest
    exact millis_pos (sub_pos.mpr hlt)
  no_callback := hwithin.no_callback
  at_end := by
    intro before x after heq hbefore hx hend
    cases before with
    | nil =>
      obtain rfl := (List.cons.inj heq).1
      exact absurd hend (not_le.mpr hlt)
    | cons y before =>
      obtain ⟨hret, hlen⟩ := hwithin.at_end before x after (List.cons.inj heq).2
        (fun z hz => hbefore z (List.mem_cons_of_mem y hz)) hx hend
      exact ⟨hret, congrArg (· + 1) hlen⟩

/-! ### The whole call -/

/-- While no reading is more than `INT_MAX - 1` milliseconds before the end, the loop keeps to it. -/
theorem pollAllUntil_within (hnear : ∀ r ∈ rounds, endTime - r.now ≤ (intMax - 1) * 1000000)
    (hlimit : ∀ r ∈ rounds, endTime - r.now ≤ limit * 1000000) :
    ∃ trace, pollAllUntil endTime timeoutMillis rounds = some trace ∧
      WithinDeadline endTime limit rounds trace := by
  induction rounds generalizing timeoutMillis with
  | nil => exact ⟨_, rfl, within_nil⟩
  | cons r rounds ih =>
    obtain ⟨hr, hrounds⟩ := List.forall_mem_cons.mp hnear
    obtain ⟨hr', hrounds'⟩ := List.forall_mem_cons.mp hlimit
    by_cases hcall : r.result = PollResult.callback.code
    · rcases le_or_gt endTime r.now with hend | hlt
      · exact ⟨_, pollAllUntil_end hcall hend, within_end hend⟩
      · have hrest := toMillisecondTimeoutDelay_near hlt hr
        have hne : millis (endTime - r.now) ≠ 0 := (millis_pos (sub_pos.mpr hlt)).ne'
        obtain ⟨trace, htrace, hwithin⟩ := ih hrounds hrounds'
        obtain ⟨timeouts, htimeouts⟩ := pollAllUntil_first htrace
        rw [pollAllUntil_again hcall hrest hne, htrace]
        exact ⟨_, rfl, within_again hlt hr' htimeouts hwithin⟩
    · exact ⟨_, pollAllUntil_return hcall, within_return hcall⟩

/-- A first callback too far from the end is followed by an infinite wait. -/
theorem pollAllUntil_infinite (hcall : r.result = PollResult.callback.code)
    (hfit : InSigned 64 (endTime - r.now)) (hfar : (intMax - 1) * 1000000 < endTime - r.now)
    (h : pollAllUntil endTime timeoutMillis (r :: rounds) = some trace) :
    ¬WithinDeadline endTime limit (r :: rounds) trace := by
  rw [pollAllUntil_again hcall (toMillisecondTimeoutDelay_far hfit hfar) (by decide)] at h
  obtain ⟨trace', htrace', rfl⟩ := Option.map_eq_some_iff.mp h
  obtain ⟨timeouts, htimeouts⟩ := pollAllUntil_first htrace'
  intro hwithin
  have hrest := hwithin.rest
  rw [htimeouts] at hrest
  obtain ⟨⟨-, hone, -⟩, -⟩ := List.forall₂_cons.mp hrest
  exact absurd hone (by decide)

/-- The call keeps to its deadline unless its timeout is `INT_MAX` and its first `pollOnce` is a
    callback that comes back within a millisecond. -/
theorem poll_all_when (hpos : 0 < timeoutMillis) (hint : InSigned 32 timeoutMillis)
    (hend : InSigned 64 (start + timeoutMillis * 1000000))
    (hclock : List.Pairwise (· ≤ ·) (start :: rounds.map AllRound.now)) :
    (∃ trace, pollAll start timeoutMillis rounds = some trace ∧
      WithinDeadline (start + timeoutMillis * 1000000) timeoutMillis rounds trace) ↔
      ¬(timeoutMillis = intMax ∧ ∃ r, rounds.head? = some r ∧
        r.result = PollResult.callback.code ∧ r.now < start + 1000000) := by
  have hle : timeoutMillis ≤ intMax := by
    unfold InSigned at hint
    unfold intMax
    omega
  have hms : InSigned 64 (timeoutMillis * 1000000) := by
    unfold InSigned at hint ⊢
    omega
  have hrun : pollAll start timeoutMillis rounds =
      pollAllUntil (start + timeoutMillis * 1000000) timeoutMillis rounds := by
    rw [pollAll, if_neg (not_le.mpr hpos), millisecondsToNanoseconds, checked_of_inSigned hms]
    simp only [Option.bind_eq_bind, Option.bind_some]
    rw [checked_of_inSigned hend, Option.bind_some]
  obtain ⟨hstart, hsorted⟩ := List.pairwise_cons.mp hclock
  rw [hrun]
  cases rounds with
  | nil =>
    refine iff_of_true ⟨_, rfl, within_nil⟩ ?_
    simp
  | cons r rounds =>
    have hr : start ≤ r.now := hstart _ (List.mem_cons_self)
    by_cases hcall : r.result = PollResult.callback.code
    · by_cases hfar : timeoutMillis = intMax ∧ r.now < start + 1000000
      · refine iff_of_false ?_ (not_not.mpr ⟨hfar.1, r, rfl, hcall, hfar.2⟩)
        rintro ⟨trace, htrace, hwithin⟩
        refine pollAllUntil_infinite hcall ?_ ?_ htrace hwithin
        · unfold InSigned intMax at *
          omega
        · omega
      · have hlater : ∀ x ∈ r :: rounds, r.now ≤ x.now := by
          refine List.forall_mem_cons.mpr ⟨le_rfl, fun x hx => ?_⟩
          exact (List.pairwise_cons.mp hsorted).1 _ (List.mem_map_of_mem hx)
        refine iff_of_true (pollAllUntil_within ?_ ?_) ?_
        · intro x hx
          have hx' := hlater x hx
          omega
        · intro x hx
          have hx' := hlater x hx
          omega
        · rintro ⟨hmax, x, hx, -, hxnow⟩
          obtain rfl : r = x := Option.some.inj hx
          exact hfar ⟨hmax, hxnow⟩
    · refine iff_of_true ⟨_, pollAllUntil_return hcall, within_return hcall⟩ ?_
      rintro ⟨-, x, hx, hxcall, -⟩
      obtain rfl : r = x := Option.some.inj hx
      exact hcall hxcall

/-- A timeout of 5 ms with a callback after 2.5 ms and one at the end. -/
theorem poll_all_five : ∃ trace,
    pollAll 1000 5 [⟨-2, 2501000⟩, ⟨-2, 5001000⟩, ⟨-1, 6000000⟩] = some trace ∧
      WithinDeadline (1000 + 5 * 1000000) 5 [⟨-2, 2501000⟩, ⟨-2, 5001000⟩, ⟨-1, 6000000⟩] trace :=
  (poll_all_when (by decide) (by decide) (by decide) (by decide)).mpr (by decide)

/-- The longest timeout and a callback at once: the next `pollOnce` may wait forever. -/
theorem poll_all_infinite :
    pollAll 0 intMax [⟨-2, 0⟩] = some ⟨[intMax, -1], none⟩ ∧
      ¬∃ trace, pollAll 0 intMax [⟨-2, 0⟩] = some trace ∧
        WithinDeadline (0 + intMax * 1000000) intMax [⟨-2, 0⟩] trace := by
  have hrun : pollAll 0 intMax [⟨-2, 0⟩] = some ⟨[intMax, -1], none⟩ := by decide
  refine ⟨hrun, ?_⟩
  rintro ⟨trace, htrace, hwithin⟩
  obtain rfl : ⟨[intMax, -1], none⟩ = trace := Option.some.inj (hrun.symm.trans htrace)
  obtain ⟨⟨-, hone, -⟩, -⟩ := List.forall₂_cons.mp hwithin.rest
  exact absurd hone (by decide)

end ThreadManager
