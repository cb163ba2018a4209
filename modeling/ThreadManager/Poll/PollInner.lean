import ThreadManager.Schemes.Transition
import ThreadManager.Poll.WakePipe

/-! `Poll::pollInner` beside any number of `Poll::wake` calls.

    A step is one system call of a thread: a write of a `wake`, the `epoll_wait` of the poller, a
    read of `awoken`. Between two steps the other threads may do any of theirs. `epoll_wait` is
    level triggered: it reports the read end of the pipe as long as a byte is in it. What follows
    is that a byte written after the last return of `pollInner` is either still there or was read
    by a `pollInner` that reports the wake. -/

namespace ThreadManager
open Schemes

/-- `ALOOPER_POLL_WAKE` and the other results of the poll functions. -/
inductive PollResult where
  | wake
  | callback
  | timeout
  | error
  deriving DecidableEq, Repr

/-- How an `epoll_wait` returns: with events, with none, or with -1 and `errno`. -/
inductive EpollWait where
  | events
  | timeout
  | eintr
  | error
  deriving DecidableEq, Repr

/-- Where the poller is: between two calls of `pollInner`, in its `epoll_wait`, before a read of
    `awoken`, or past the events with the result it is to return. -/
inductive PollPc where
  | outside
  | waiting
  | reading
  | done (result : PollResult)
  deriving DecidableEq, Repr

/-- A `Poll`: its pipe, its poller, and which calls of `wake` have not made their last write. -/
structure PollSys where
  mPipe : WakePipe
  poller : PollPc
  writing : ℕ → Bool

/-- The steps. A write or a read may be cut short by EINTR, and is then made again. -/
inductive PollAct where
  | wake (p : ℕ)
  | write (p : ℕ) (eintr : Bool)
  | pollInner
  | epollWait (r : EpollWait)
  | read (eintr : Bool)
  | ret
  deriving DecidableEq, Repr

namespace PollSys

/-- Nobody has called anything. -/
def start (mPipe : WakePipe) : PollSys := ⟨mPipe, .outside, fun _ => false⟩

/-- The thread of the step is there. A timeout is reported only while no byte is in the pipe; events
    may also be those of another descriptor. -/
def Enabled (s : PollSys) : PollAct → Prop
  | .wake p => s.writing p = false
  | .write p _ => s.writing p = true
  | .pollInner => s.poller = .outside
  | .epollWait r => s.poller = .waiting ∧ (r = .timeout → s.mPipe.count = 0)
  | .read _ => s.poller = .reading
  | .ret => ∃ r, s.poller = .done r

/-- What a step does. Events on descriptors other than the read end are only logged. -/
def exec (s : PollSys) : PollAct → PollSys
  | .wake p => { s with writing := Function.update s.writing p true }
  | .write _ true => s
  | .write p false =>
    { s with mPipe := s.mPipe.wake, writing := Function.update s.writing p false }
  | .pollInner => { s with poller := .waiting }
  | .epollWait .events => { s with poller := if 0 < s.mPipe.count then .reading else .done .wake }
  | .epollWait .timeout => { s with poller := .done .timeout }
  | .epollWait .eintr => { s with poller := .done .wake }
  | .epollWait .error => { s with poller := .done .error }
  | .read true => s
  | .read false => match s.mPipe.awokenPass with
    | .done (.inl p) => { s with mPipe := p }
    | .done (.inr p) => { s with mPipe := p, poller := .done .wake }
    | _ => s
  | .ret => { s with poller := .outside }

/-- A step. -/
def Step (s : PollSys) (a : PollAct) (t : PollSys) : Prop := s.Enabled a ∧ t = s.exec a

/-- The poller is past the `epoll_wait` of a `pollInner` that can only return `r`, and left alone it
    comes to return it. -/
def WillReturn (s : PollSys) (r : PollResult) : Prop :=
  s.poller ≠ .outside ∧ s.poller ≠ .waiting ∧
    (∀ tr t u, Run Step s tr t → (∀ x ∈ tr, x.act ≠ .ret) → Step t .ret u → t.poller = .done r) ∧
    ∃ tr t, Run Step s tr t ∧ (∀ x ∈ tr, x.act = .read false) ∧ t.poller = .done r

/-- A byte is in the pipe or the poller has seen one. -/
def Seen (s : PollSys) : Prop :=
  0 < s.mPipe.count ∨ s.poller = .reading ∨ s.poller = .done .wake

variable {s t : PollSys} {a : PollAct} {mPipe : WakePipe} {p : ℕ}

/-- A poller that reads, or is about to report the wake, does so until it returns. -/
theorem step_reading (h : s.poller = .reading ∨ s.poller = .done .wake) (hstep : Step s a t)
    (ha : a ≠ .ret) : t.poller = .reading ∨ t.poller = .done .wake := by
  obtain ⟨hen, rfl⟩ := hstep
  cases a with
  | wake p => exact h
  | write p eintr => cases eintr <;> exact h
  | pollInner =>
    rw [show s.poller = .outside from hen] at h
    rcases h with h | h <;> cases h
  | epollWait r =>
    rw [hen.1] at h
    rcases h with h | h <;> cases h
  | read eintr =>
    cases eintr with
    | true => exact h
    | false =>
      rcases s.mPipe.awokenPass_cases with ⟨q, hq, -⟩ | ⟨q, hq, -⟩
      · simpa only [exec, hq] using h
      · exact Or.inr (by simp only [exec, hq])
  | ret => exact absurd rfl ha

/-- With nobody writing the reads come to an end: each takes 16 bytes out or is the last one. -/
theorem reads_end (n : ℕ) : ∀ s : PollSys, s.mPipe.count = n → s.poller = .reading →
    ∃ tr t, Run Step s tr t ∧ (∀ x ∈ tr, x.act = .read false) ∧ t.poller = .done .wake := by
  induction n using Nat.strong_induction_on with
  | _ n ih =>
    intro s hcount hreading
    have hstep : Step s (.read false) (s.exec (.read false)) := ⟨hreading, rfl⟩
    rcases s.mPipe.awokenPass_cases with ⟨q, hq, hless, -⟩ | ⟨q, hq, -⟩
    · have hexec : s.exec (.read false) = { s with mPipe := q } := by simp only [exec, hq]
      rw [hexec] at hstep
      obtain ⟨tr, t, hrun, hreads, hdone⟩ := ih q.count (by omega) { s with mPipe := q } rfl hreading
      exact ⟨_, t, hrun.cons hstep, List.forall_mem_cons.mpr ⟨rfl, hreads⟩, hdone⟩
    · have hexec : s.exec (.read false) = { s with mPipe := q, poller := .done .wake } := by
        simp only [exec, hq]
      rw [hexec] at hstep
      exact ⟨_, _, Run.nil.snoc hstep, List.forall_mem_singleton.mpr rfl, rfl⟩

theorem willReturn_wake (h : s.poller = .reading ∨ s.poller = .done .wake) :
    s.WillReturn .wake := by
  refine ⟨?_, ?_, ?_, ?_⟩
  · rcases h with h | h <;> simp [h]
  · rcases h with h | h <;> simp [h]
  · intro tr t u hrun hno hret
    have ht : t.poller = .reading ∨ t.poller = .done .wake :=
      hrun.invariant (I := fun s => s.poller = .reading ∨ s.poller = .done .wake) h
        fun x hx hstep hpre => step_reading hpre hstep (hno x hx)
    obtain ⟨⟨r, hr⟩, -⟩ := hret
    rcases ht with ht | ht
    · rw [hr] at ht
      cases ht
    · exact ht
  · rcases h with h | h
    · exact reads_end _ s rfl h
    · exact ⟨[], s, .nil, nofun, h⟩

/-- The last write of a `wake` leaves a byte in the pipe, also if the pipe was full. -/
theorem seen_of_write (hstep : Step s (.write p false) t) : t.Seen := by
  obtain ⟨-, rfl⟩ := hstep
  exact Or.inl (WakePipe.count_wake_pos _)

/-- Only the poller takes bytes out, and then it is on its way to report the wake. -/
theorem Seen.step (h : s.Seen) (hstep : Step s a t) (ha : a ≠ .ret) : t.Seen := by
  rcases h with hcount | hpc
  · obtain ⟨hen, rfl⟩ := hstep
    cases a with
    | wake p => exact Or.inl hcount
    | write p eintr =>
      cases eintr with
      | true => exact Or.inl hcount
      | false => exact Or.inl (WakePipe.count_wake_pos _)
    | pollInner => exact Or.inl hcount
    | epollWait r => cases r <;> exact Or.inl hcount
    | read eintr =>
      cases eintr with
      | true => exact Or.inl hcount
      | false =>
        rcases s.mPipe.awokenPass_cases with ⟨q, hq, -⟩ | ⟨q, hq, -⟩
        · refine Or.inr (Or.inl ?_)
          simp only [exec, hq]
          exact hen
        · exact Or.inr (Or.inr (by simp only [exec, hq]))
    | ret => exact absurd rfl ha
  · exact Or.inr (step_reading hpc hstep ha)

end PollSys

namespace WakePipe

/-- One pass of `awoken` with nobody writing; `eintr` says which of the reads to come are cut short
    by EINTR. -/
def awokenEintrPass (s : WakePipe × List Bool) :
    Outcome Fault ((WakePipe × List Bool) ⊕ WakePipe) :=
  match s.2 with
  | true :: l => .done (.inl (s.1, l))
  | l => awokenPass s.1 >>= fun
    | .inl p => .done (.inl (p, l.tail))
    | .inr p => .done (.inr p)

/-- `Poll::awoken` with the EINTRs of `eintr`, its loop given `fuel` passes. -/
def awokenEintr (eintr : List Bool) (fuel : ℕ) (p : WakePipe) : Outcome Fault WakePipe :=
  loop awokenEintrPass fuel (p, eintr)

/-- Without EINTR this is `awoken`. -/
theorem awokenEintr_nil (fuel : ℕ) (p : WakePipe) : p.awokenEintr [] fuel = p.awoken fuel := by
  induction fuel generalizing p with
  | zero => rfl
  | succ n ih =>
    rw [awokenEintr, awoken, loop, loop]
    rcases awokenPass_cases p with ⟨q, hq, -⟩ | ⟨q, hq, -⟩
    · simpa [awokenEintrPass, hq, awokenEintr, awoken] using ih q
    · simp [awokenEintrPass, hq]

/-- A pass uses up an EINTR or 16 bytes, or is the last one and leaves nothing. -/
theorem awokenEintrPass_cases (p : WakePipe) (l : List Bool) :
    (∃ s, awokenEintrPass (p, l) = .done (.inl s) ∧ s.1.count + s.2.length < p.count + l.length) ∨
      ∃ p', awokenEintrPass (p, l) = .done (.inr p') ∧ p'.count = 0 := by
  have hread : ∀ r : Outcome Fault ((WakePipe × List Bool) ⊕ WakePipe),
      r = (awokenPass p >>= fun
        | .inl p => .done (.inl (p, l.tail))
        | .inr p => .done (.inr p)) →
      (∃ s, r = .done (.inl s) ∧ s.1.count + s.2.length < p.count + l.length) ∨
        ∃ p', r = .done (.inr p') ∧ p'.count = 0 := by
    rintro _ rfl
    rcases awokenPass_cases p with ⟨q, hq, hcount, -⟩ | ⟨q, hq, hzero, -⟩
    · exact Or.inl ⟨(q, l.tail), by simp [hq], by simp; omega⟩
    · exact Or.inr ⟨q, by simp [hq], hzero⟩
  rcases l with _ | ⟨_ | _, l⟩
  · exact hread _ rfl
  · exact hread _ rfl
  · exact Or.inl ⟨(p, l), rfl, by simp⟩

/-- With any finite number of EINTRs `awoken` returns, and the pipe is empty. -/
theorem awokenEintr_empties (eintr : List Bool) (p : WakePipe) :
    ∃ p', Completes (fun n => p.awokenEintr eintr n) p' ∧ p'.count = 0 := by
  suffices h : ∃ p' : WakePipe, p.awokenEintr eintr (p.count + eintr.length + 1) = .done p' ∧
      p'.count = 0 by
    obtain ⟨p', hp', hzero⟩ := h
    exact ⟨p', ⟨_, hp'⟩, hzero⟩
  refine loop_total (R := fun k (s : WakePipe × List Bool) => k = s.1.count + s.2.length)
    (P := fun o => ∃ p' : WakePipe, o = .done p' ∧ p'.count = 0) ?_ _ _ (p, eintr) rfl
    (Nat.lt_succ_self _)
  rintro k ⟨q, l⟩ rfl
  rcases awokenEintrPass_cases q l with ⟨s', hs', hless⟩ | ⟨p', hp', hzero⟩
  · exact Or.inl ⟨s', hs', _, hless, rfl⟩
  · exact Or.inr (Or.inl ⟨p', hp', p', rfl, hzero⟩)

end WakePipe

namespace PollSys

/-- If a `wake` made its last write after the last return of `pollInner`, a byte is in the pipe or
    the poller is in a `pollInner` that reports the wake. And `awoken`, with nobody writing, returns
    from every count and leaves the pipe empty. -/
theorem wake_kept :
    (∀ mPipe tr₁ x tr₂ s p, Run Step (start mPipe) (tr₁ ++ x :: tr₂) s → x.act = .write p false →
      (∀ y ∈ tr₂, y.act ≠ .ret) → 0 < s.mPipe.count ∨ s.WillReturn .wake) ∧
    ∀ eintr p, ∃ p', Completes (fun n => WakePipe.awokenEintr eintr n p) p' ∧ p'.count = 0 := by
  refine ⟨?_, WakePipe.awokenEintr_empties⟩
  intro mPipe tr₁ x tr₂ s p hrun hx hno
  obtain ⟨-, hwrite, hrest⟩ := hrun.split
  rw [hx] at hwrite
  have hseen : s.Seen := hrest.invariant (seen_of_write hwrite) fun y hy hstep h =>
    h.step hstep (hno y hy)
  exact hseen.imp_right willReturn_wake

/-- A write into a full pipe is dropped, and the read that empties the pipe is the one of a
    `pollInner` that reports the wake. -/
theorem wake_kept_full : ∃ tr s, Run Step (start (.new 1 (by decide))) tr s ∧
    tr.map Taken.act = [.wake 0, .write 0 false, .wake 1, .write 1 true, .pollInner,
      .epollWait .events, .write 1 false, .read false] ∧
    s.mPipe.count = 0 ∧ (0 < s.mPipe.count ∨ s.WillReturn .wake) := by
  have h₀ : Run Step (start (.new 1 (by decide))) [] _ := Run.nil
  have h₁ := h₀.snoc (a := PollAct.wake 0) ⟨rfl, rfl⟩
  have h₂ := h₁.snoc (a := PollAct.write 0 false) ⟨rfl, rfl⟩
  have h₃ := h₂.snoc (a := PollAct.wake 1) ⟨rfl, rfl⟩
  have h₄ := h₃.snoc (a := PollAct.write 1 true) ⟨rfl, rfl⟩
  have h₅ := h₄.snoc (a := PollAct.pollInner) ⟨rfl, rfl⟩
  have h₆ := h₅.snoc (a := PollAct.epollWait .events) ⟨⟨rfl, by rintro ⟨⟩⟩, rfl⟩
  have h₇ := h₆.snoc (a := PollAct.write 1 false) ⟨rfl, rfl⟩
  have h₈ := h₇.snoc (a := PollAct.read false) ⟨rfl, rfl⟩
  rw [List.append_assoc] at h₈
  exact ⟨_, _, h₈, rfl, rfl, wake_kept.1 _ _ _ _ _ 1 h₈ rfl (by simp)⟩

end PollSys

end ThreadManager
