import ThreadManager.Clock.Timers
import ThreadManager.Poll.PollInner

/-! `Poll::pollOnce` over the returns of `epoll_wait`.

    `pollInner` tells a wake, a timeout and an error apart. `pollOnce` calls it again until the result
    is a wake, and its body then ends: it has no return statement, so not even a wake is reported. -/

namespace ThreadManager
open Schemes

/-- `LLONG_MAX`: no message is waited for. -/
def llongMax : ℤ := 0x7FFFFFFFFFFFFFFF

/-- An `epoll_wait` of `pollInner`, with the clock reading made before it. -/
structure PollRound where
  now : ℤ
  outcome : EpollWait
deriving DecidableEq, Repr

/-- The result of `pollInner`: it starts out as the wake and is changed by a failure other than EINTR
    and by a timeout. -/
def EpollWait.result : EpollWait → PollResult
  | .events => .wake
  | .eintr => .wake
  | .timeout => .timeout
  | .error => .error

/-- The timeout `pollInner` gives to `epoll_wait`: adjusted to when the next message is due. -/
def pollInnerTimeout (mNextMessageUptime timeoutMillis now : ℤ) : Option ℤ :=
  if timeoutMillis ≠ 0 ∧ mNextMessageUptime ≠ llongMax then do
    let messageTimeoutMillis ← toMillisecondTimeoutDelay now mNextMessageUptime
    return if messageTimeoutMillis ≥ 0 ∧ (timeoutMillis < 0 ∨ messageTimeoutMillis < timeoutMillis)
      then messageTimeoutMillis else timeoutMillis
  else return timeoutMillis

/-- What a poll function has done so far: the timeouts it passed on, and the value it returned, if it
    has returned and returned one. -/
structure PollTrace (α : Type) where
  timeouts : List ℤ
  returned : Option α
deriving DecidableEq, Repr

/-- `Poll::pollOnce` on the rounds to come; without any left it waits. Every `pollInner` leaves
    `mNextMessageUptime = LLONG_MAX`. The value `none` is the end of the body without a return. -/
def pollOnce (mNextMessageUptime timeoutMillis : ℤ) :
    List PollRound → Option (PollTrace (Option PollResult))
  | [] => some ⟨[], none⟩
  | r :: rounds => do
    let timeout ← pollInnerTimeout mNextMessageUptime timeoutMillis r.now
    if r.outcome.result = .wake then return ⟨[timeout], some none⟩
    else
      let trace ← pollOnce llongMax timeoutMillis rounds
      return { trace with timeouts := timeout :: trace.timeouts }

variable {timeoutMillis now : ℤ} {r : PollRound} {rounds : List PollRound}

/-- With no message waited for, `epoll_wait` gets the timeout of the call. -/
theorem pollInnerTimeout_llongMax : pollInnerTimeout llongMax timeoutMillis now = some timeoutMillis :=
  if_neg fun h => h.2 rfl

theorem pollOnce_wake (h : r.outcome.result = .wake) :
    pollOnce llongMax timeoutMillis (r :: rounds) = some ⟨[timeoutMillis], some none⟩ := by
  rw [pollOnce, pollInnerTimeout_llongMax]
  simp [h]

theorem pollOnce_again (h : r.outcome.result ≠ .wake) :
    pollOnce llongMax timeoutMillis (r :: rounds) =
      (pollOnce llongMax timeoutMillis rounds).map fun trace =>
        { trace with timeouts := timeoutMillis :: trace.timeouts } := by
  rw [pollOnce, pollInnerTimeout_llongMax]
  cases hrest : pollOnce llongMax timeoutMillis rounds <;> simp [h]

/-- A wake after any number of other outcomes ends the call, and only then. -/
theorem pollOnce_append_wake {before after : List PollRound}
    (hbefore : ∀ x ∈ before, x.outcome.result ≠ .wake) (h : r.outcome.result = .wake) :
    pollOnce llongMax timeoutMillis (before ++ r :: after) =
      some ⟨List.replicate (before.length + 1) timeoutMillis, some none⟩ := by
  induction before with
  | nil => exact pollOnce_wake h
  | cons x before ih =>
    have hx := hbefore x List.mem_cons_self
    rw [List.cons_append, pollOnce_again hx, ih fun y hy => hbefore y (List.mem_cons_of_mem x hy)]
    rfl

/-- Without one it goes on waiting, with the whole timeout each time. -/
theorem pollOnce_no_wake (h : ∀ x ∈ rounds, x.outcome.result ≠ .wake) :
    pollOnce llongMax timeoutMillis rounds =
      some ⟨List.replicate rounds.length timeoutMillis, none⟩ := by
  induction rounds with
  | nil => rfl
  | cons x rounds ih =>
    have hx := h x List.mem_cons_self
    rw [pollOnce_again hx, ih fun y hy => h y (List.mem_cons_of_mem x hy)]
    rfl

/-- No outcomes make it return a value. -/
theorem pollOnce_no_value {mNextMessageUptime : ℤ} {trace : PollTrace (Option PollResult)}
    (h : pollOnce mNextMessageUptime timeoutMillis rounds = some trace) (v : PollResult) :
    trace.returned ≠ some (some v) := by
  induction rounds generalizing mNextMessageUptime trace with
  | nil =>
    cases h
    simp
  | cons x rounds ih =>
    rw [pollOnce] at h
    obtain ⟨timeout, -, h⟩ := Option.bind_eq_some_iff.mp h
    by_cases hx : x.outcome.result = .wake
    · rw [if_pos hx] at h
      cases h
      simp
    · rw [if_neg hx] at h
      obtain ⟨rest, hrest, h⟩ := Option.bind_eq_some_iff.mp h
      cases h
      have hno : rest.returned ≠ some (some v) := ih hrest
      exact hno

/-- A call that has not waited has not returned. -/
theorem pollOnce_no_wait {returned : Option (Option PollResult)}
    (h : pollOnce llongMax timeoutMillis rounds = some ⟨[], returned⟩) : returned = none := by
  cases rounds with
  | nil =>
    cases h
    rfl
  | cons x rounds =>
    by_cases hx : x.outcome.result = .wake
    · rw [pollOnce_wake hx] at h
      cases h
    · rw [pollOnce_again hx] at h
      obtain ⟨trace, -, htrace⟩ := Option.map_eq_some_iff.mp h
      cases htrace

/-! ### The outcome and the system of `wake` and `pollInner` -/

namespace PollSys

variable {s t : PollSys}

/-- A poller past its events stays there until it returns. -/
theorem willReturn_done {result : PollResult} (h : s.poller = .done result) :
    s.WillReturn result := by
  refine ⟨by simp [h], by simp [h], ?_, [], s, .nil, (by simp), h⟩
  intro tr t u hrun hno hret
  refine hrun.invariant (I := fun s => s.poller = .done result) h ?_
  rintro x hx ⟨hen, hpost⟩ hpre
  rw [hpost]
  have hact := hno x hx
  cases hx' : x.act with
  | wake p => exact hpre
  | write p eintr => cases eintr <;> exact hpre
  | pollInner => rw [hx'] at hen; exact absurd (hpre.symm.trans hen) (by simp)
  | epollWait r => rw [hx'] at hen; exact absurd (hpre.symm.trans hen.1) (by simp)
  | read eintr => rw [hx'] at hen; exact absurd (hpre.symm.trans hen) (by simp)
  | ret => exact absurd hx' hact

/-- Beside any calls of `wake`, the `pollInner` whose `epoll_wait` returns so reports that result. -/
theorem willReturn_epollWait {outcome : EpollWait} (h : Step s (.epollWait outcome) t) :
    t.WillReturn outcome.result := by
  obtain ⟨-, rfl⟩ := h
  cases outcome with
  | events =>
    refine willReturn_wake ?_
    by_cases hcount : 0 < s.mPipe.count
    · exact Or.inl (if_pos hcount)
    · exact Or.inr (if_neg hcount)
  | timeout => exact willReturn_done rfl
  | eintr => exact willReturn_done rfl
  | error => exact willReturn_done rfl

end PollSys

/-! ### What the first outcome does -/

/-- The call returns at the outcome of `r`, having waited once for the whole timeout, and reports it. -/
def ReportsOutcome (timeoutMillis : ℤ) (r : PollRound) (rounds : List PollRound) : Prop :=
  pollOnce llongMax timeoutMillis (r :: rounds) =
    some ⟨[timeoutMillis], some (some r.outcome.result)⟩

/-- The first outcome is never reported. A wake ends the call without a value, and any other outcome
    does not even end it. -/
theorem poll_once_never (timeoutMillis : ℤ) (r : PollRound) (rounds : List PollRound) :
    ¬ReportsOutcome timeoutMillis r rounds ∧
      ((∃ v, pollOnce llongMax timeoutMillis (r :: rounds) = some ⟨[timeoutMillis], some v⟩) ↔
        r.outcome.result = .wake) := by
  constructor
  · intro h
    exact pollOnce_no_value h _ rfl
  · constructor
    · rintro ⟨v, hv⟩
      by_contra hwake
      rw [pollOnce_again hwake] at hv
      obtain ⟨⟨timeouts, returned⟩, htrace, heq⟩ := Option.map_eq_some_iff.mp hv
      cases heq
      exact Option.some_ne_none v (pollOnce_no_wait htrace)
    · intro h
      exact ⟨none, pollOnce_wake h⟩

/-- A timeout of 100 ms that expires is waited for again, and a wake after it ends the call without a
    value. -/
theorem poll_once_timeout_again :
    ¬ReportsOutcome 100 ⟨0, .timeout⟩ [⟨0, .timeout⟩, ⟨0, .events⟩] ∧
      pollOnce llongMax 100 [⟨0, .timeout⟩, ⟨0, .timeout⟩, ⟨0, .events⟩] =
        some ⟨[100, 100, 100], some none⟩ := by
  unfold ReportsOutcome
  exact ⟨by decide, by decide⟩

end ThreadManager
