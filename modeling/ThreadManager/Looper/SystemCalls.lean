import ThreadManager.Looper.Safety
import ThreadManager.Poll.PollInner

/-! The looper and its producers, system call by system call.

    In `Sys` a wake is one step and so is `pollOnce`. Here a wake is a write that EINTR may cut
    short, and `pollOnce` is the loop of the source: `pollInner` again until it reports a wake, each
    with its `epoll_wait` and the reads of `awoken`, and the producers come in between any two of these
    calls. `CallSys.Shows` says what `Sys` shows meanwhile: the bytes are in its pipe until the last
    read, and with that read its looper is in `next`. So a run of calls is a run of `Sys`, and what
    holds in those runs holds between any two calls. And a looper that is left alone comes out of
    `pollOnce` once a byte is there, wherever it is in it. -/

namespace ThreadManager
open Schemes

/-- The sections under `mLock`, and what the looper does with a message: no call on the pipe. -/
def Act.Locked : Act → Prop
  | .wake _ => False
  | .poll => False
  | .interrupt => False
  | _ => True

namespace Sys

/-- The same with another pipe and the looper elsewhere. -/
def withPoll (s : Sys) (mPoll : WakePipe) (looper : Pc) : Sys :=
  { s with queue := { s.queue with mPoll }, looper }

variable {s : Sys} {q : WakePipe} {l : Pc}

theorem withPoll_self : s.withPoll s.queue.mPoll s.looper = s := rfl

/-- A producer looks at neither of them. -/
theorem exec_withPoll {a : Act} (ha : a.Locked) (hp : ¬Act.ofLooper a) (n : ℕ) :
    exec n (s.withPoll q l) a = exec n s a >>= fun t => .done (t.withPoll q l) := by
  cases a with
  | createMessage m g now => rfl
  | enqueue p m when =>
    change Sys.enqueue n (s.withPoll q l) p m when = Sys.enqueue n s p m when >>= _
    unfold Sys.enqueue
    change (s.queue.mem.deref (some m) >>= _) = _
    cases s.queue.mem.deref (some m) with
    | fault e => rfl
    | running => rfl
    | done x =>
      simp only [Outcome.done_bind]
      cases x.obj.getTarget with
      | none => rfl
      | some target =>
        simp only [MessageQueue.enqueueLocked]
        change ((s.queue.mInboundQueue.enqueueAtTimeOut n (some m) when >>= _) >>= _) = _
        cases s.queue.mInboundQueue.enqueueAtTimeOut n (some m) when <;> rfl
  | wake p => exact absurd ha id
  | _ => exact absurd trivial hp

end Sys

/-- The threads of `Sys` with the looper's place in `pollOnce`; `base.queue.mPoll` is the pipe as it
    is, and the producers that owe a wake are in it. -/
structure CallSys where
  base : Sys
  poller : PollPc

/-- A step: one of `Sys` without a call on the pipe, or a call. -/
inductive CallAct where
  | locked (a : Act)
  | call (a : PollAct)
  deriving DecidableEq, Repr

namespace CallSys

/-- The looper enters its first `next`. -/
def start (mem : Heap (Link Message)) (mPoll : WakePipe) : CallSys := ⟨.start mem mPoll, .outside⟩

/-- What the calls are made on. -/
def pollSys (s : CallSys) : PollSys := ⟨s.base.queue.mPoll, s.poller, s.base.owes⟩

/-- The looper is in `pollOnce`. -/
def Polling (s : CallSys) : Prop := ∃ timeoutMillis, s.base.looper = .polling timeoutMillis

/-- A wake begins with the release of `mLock`, and `pollInner` is called by `pollOnce` only. -/
def Enabled (s : CallSys) : CallAct → Prop
  | .locked a => a.Locked ∧ s.base.Enabled a
  | .call a => s.pollSys.Enabled a ∧ (∀ p, a ≠ .wake p) ∧ (a = .pollInner → s.Polling)

/-- A call. When `pollInner` returns, `pollOnce` returns if it reports the wake, and else calls it
    again. -/
def call (s : CallSys) (a : PollAct) : CallSys :=
  let p := s.pollSys.exec a
  { base := { s.base with
      queue := { s.base.queue with mPoll := p.mPipe }
      owes := p.writing
      looper := if a = .ret ∧ s.poller = .done .wake then .inNext else s.base.looper }
    poller := p.poller }

/-- A completed step. -/
def Step (s : CallSys) (a : CallAct) (t : CallSys) : Prop :=
  s.Enabled a ∧ match a with
    | .locked a => Completes (fun n => s.base.exec n a) t.base ∧ t.poller = s.poller
    | .call a => t = s.call a

/-- The steps `tr` from the start. -/
abbrev Runs (mem : Heap (Link Message)) (mPoll : WakePipe) (tr : List (Taken CallSys CallAct))
    (s : CallSys) : Prop :=
  Run Step (start mem mPoll) tr s

/-- Where the poller is, the pipe and the looper that `Sys` shows. -/
def Shown (s : CallSys) (q : WakePipe) (l : Pc) : PollPc → Prop
  | .outside => q = s.base.queue.mPoll ∧ l = s.base.looper
  | .reading => s.Polling ∧ 0 < q.count ∧ q.capacity = s.base.queue.mPoll.capacity ∧
      l = s.base.looper
  | .done .wake => s.Polling ∧ q = s.base.queue.mPoll ∧ l = .inNext
  | _ => s.Polling ∧ q = s.base.queue.mPoll ∧ l = s.base.looper

/-- `t` is what `Sys` shows: all but the pipe and the looper are as they are. -/
def Shows (s : CallSys) (t : Sys) : Prop :=
  ∃ q l, t = s.base.withPoll q l ∧ s.Shown q l s.poller

/-- The step of `Sys` that a step is, if it is one. -/
def label (x : Taken CallSys CallAct) : Option Act :=
  match x.act with
  | .locked a => some a
  | .call (.write p false) => some (.wake p)
  | .call (.epollWait .eintr) => some .interrupt
  | .call (.epollWait .events) =>
    if 0 < x.pre.base.queue.mPoll.count then none else some .interrupt
  | .call (.read false) => if x.post.poller = .done .wake then some .poll else none
  | _ => none

variable {s t : CallSys} {u : Sys} {a : Act} {p : ℕ} {q : WakePipe} {l : Pc} {r : EpollWait}
  {eintr : Bool} {mem : Heap (Link Message)} {mPoll : WakePipe} {tr : List (Taken CallSys CallAct)}

/-- Where the poller is not outside, the looper is in `pollOnce`. -/
theorem Shown.polling (h : s.Shown q l s.poller) (hout : s.poller ≠ .outside) : s.Polling := by
  cases hp : s.poller with
  | outside => exact absurd hp hout
  | done r =>
    rw [hp] at h
    cases r <;> exact h.1
  | _ =>
    rw [hp] at h
    exact h.1

/-- A looper that is not in `pollOnce` is shown as it is. -/
theorem Shows.eq (h : s.Shows u) (hno : ¬s.Polling) : u = s.base ∧ s.poller = .outside := by
  obtain ⟨q, l, rfl, hshown⟩ := h
  have hout : s.poller = .outside := by
    by_contra hout
    exact hno (hshown.polling hout)
  rw [hout] at hshown
  obtain ⟨rfl, rfl⟩ := hshown
  exact ⟨Sys.withPoll_self, hout⟩

theorem not_polling (h : s.base.Enabled a) (ha : a.Locked) (hl : Sys.Act.ofLooper a) : ¬s.Polling := by
  rintro ⟨timeout, hpc⟩
  cases a with
  | next now =>
    rw [show s.base.looper = .inNext from h] at hpc
    cases hpc
  | dispatch now =>
    obtain ⟨m, hm⟩ := h
    rw [hm] at hpc
    cases hpc
  | recycle =>
    obtain ⟨m, hm⟩ := h
    rw [hm] at hpc
    cases hpc
  | poll => exact ha
  | interrupt => exact ha
  | _ => exact hl

/-! ### One step -/

/-- A section of a producer leaves the pipe and the looper alone. -/
theorem locked_base {b : Sys} (ha : a.Locked) (hl : ¬Sys.Act.ofLooper a)
    (hstep : Sys.Step s.base a b) : b.queue.mPoll = s.base.queue.mPoll ∧ b.looper = s.base.looper := by
  refine ⟨?_, (hstep.of_producer hl).1⟩
  cases a with
  | createMessage m g now =>
    obtain ⟨-, -, rfl⟩ := Sys.step_createMessage hstep
    rfl
  | enqueue p m when =>
    obtain ⟨-, -, ⟨-, rfl⟩ | ⟨target, q, -, -, rfl⟩⟩ := Sys.step_enqueue hstep <;> rfl
  | wake p => exact absurd ha id
  | _ => exact absurd trivial hl

theorem enabled_withPoll (ha : a.Locked) (hl : ¬Sys.Act.ofLooper a) :
    (s.base.withPoll q l).Enabled a ↔ s.base.Enabled a := by
  cases a with
  | createMessage m g now => exact Iff.rfl
  | enqueue p m when => exact Iff.rfl
  | wake p => exact absurd ha id
  | _ => exact absurd trivial hl

/-- A step without a call is the same step of `Sys`. -/
theorem Shows.locked (h : s.Shows u) (hstep : Step s (.locked a) t) :
    ∃ u', Sys.Step u a u' ∧ t.Shows u' := by
  obtain ⟨⟨ha, hen⟩, hdone, hpoller⟩ := hstep
  have hbase : Sys.Step s.base a t.base := ⟨hen, hdone⟩
  rcases em (Sys.Act.ofLooper a) with hl | hl
  · obtain ⟨rfl, hout⟩ := h.eq (not_polling hen ha hl)
    refine ⟨t.base, hbase, _, _, Sys.withPoll_self.symm, ?_⟩
    rw [hpoller, hout]
    exact ⟨rfl, rfl⟩
  · obtain ⟨q, l, rfl, hshown⟩ := h
    obtain ⟨n, hn⟩ := hdone
    obtain ⟨hpipe, hloop⟩ := locked_base ha hl hbase
    refine ⟨t.base.withPoll q l, ⟨(enabled_withPoll ha hl).mpr hen, n, ?_⟩, q, l, rfl, ?_⟩
    · have hrun : Sys.exec n s.base a = .done t.base := hn
      change Sys.exec n (s.base.withPoll q l) a = _
      rw [Sys.exec_withPoll ha hl, hrun, Outcome.done_bind]
    · have hpolling : t.Polling ↔ s.Polling := by simp only [Polling, hloop]
      rw [hpoller]
      revert hshown
      cases s.poller with
      | done r => cases r <;> simp only [Shown, hpolling, hpipe, hloop] <;> exact id
      | _ =>
        simp only [Shown, hpolling, hpipe, hloop]
        exact id

theorem capacity_wake (q : WakePipe) : q.wake.capacity = q.capacity := by
  unfold WakePipe.wake WakePipe.write
  split <;> rfl

/-- The last write of a wake is the wake of `Sys`. -/
theorem Shows.write (h : s.Shows u) (hstep : Step s (.call (.write p false)) t) :
    ∃ u', Sys.Step u (.wake p) u' ∧ t.Shows u' := by
  obtain ⟨⟨howes, -⟩, rfl⟩ := hstep
  obtain ⟨q, l, rfl, hshown⟩ := h
  refine ⟨_, ⟨howes, 0, rfl⟩, q.wake, l, rfl, ?_⟩
  change (s.call (.write p false)).Shown q.wake l s.poller
  revert hshown
  cases s.poller with
  | outside =>
    rintro ⟨rfl, rfl⟩
    exact ⟨rfl, rfl⟩
  | waiting =>
    rintro ⟨hp, rfl, rfl⟩
    exact ⟨hp, rfl, rfl⟩
  | reading =>
    rintro ⟨hp, hcount, hcap, rfl⟩
    refine ⟨hp, WakePipe.count_wake_pos q, ?_, rfl⟩
    exact ((capacity_wake q).trans hcap).trans (capacity_wake s.base.queue.mPoll).symm
  | done r =>
    cases r <;> rintro ⟨hp, rfl, rfl⟩ <;> exact ⟨hp, rfl, rfl⟩

/-- A read of `awoken`: the last one is the `pollOnce` of `Sys`, the others show nothing. -/
theorem Shows.read (h : s.Shows u) (hstep : Step s (.call (.read false)) t) :
    t.poller ≠ .done .wake ∧ t.Shows u ∨
      t.poller = .done .wake ∧ ∃ u', Sys.Step u .poll u' ∧ t.Shows u' := by
  obtain ⟨⟨hreading, -⟩, rfl⟩ := hstep
  have hreading : s.poller = .reading := hreading
  obtain ⟨q, l, rfl, hshown⟩ := h
  rw [hreading] at hshown
  obtain ⟨⟨timeout, hpc⟩, hcount, hcap, rfl⟩ := hshown
  rcases s.base.queue.mPoll.awokenPass_cases with ⟨q', hpass, -, hcap'⟩ | ⟨q', hpass, hzero, hcap'⟩
  · have hcall : s.call (.read false) =
        ⟨{ s.base with queue := { s.base.queue with mPoll := q' } }, .reading⟩ := by
      simp [call, pollSys, PollSys.exec, hpass, hreading]
    rw [hcall]
    exact Or.inl ⟨by simp, q, s.base.looper, rfl, ⟨timeout, hpc⟩, hcount, hcap.trans hcap'.symm, rfl⟩
  · have hcall : s.call (.read false) =
        ⟨{ s.base with queue := { s.base.queue with mPoll := q' } }, .done .wake⟩ := by
      simp [call, pollSys, PollSys.exec, hpass]
    rw [hcall]
    -- both pipes are empty now, and they are the same
    obtain ⟨q'', hdrain, hzero'', hcap''⟩ := q.awoken_empties (Nat.lt_succ_self q.count)
    have heq : q'' = q' := by
      cases q''
      cases q'
      simp only [WakePipe.mk.injEq]
      exact ⟨(hcap''.trans hcap).trans hcap'.symm, hzero''.trans hzero.symm⟩
    subst heq
    refine Or.inr ⟨rfl, s.base.withPoll q'' .inNext, ⟨⟨⟨timeout, hpc⟩, hcount⟩, q.count + 1, ?_⟩,
      q'', .inNext, rfl, ⟨timeout, hpc⟩, rfl, rfl⟩
    change (q.awoken (q.count + 1) >>= _) = _
    rw [hdrain]
    rfl

/-- An `epoll_wait` that leads to the report of a wake without a read is an interrupt of `Sys`. -/
theorem Shows.interrupt (h : s.Shows u) (hwaiting : s.poller = .waiting)
    (hcall : t = ⟨s.base, .done .wake⟩) : ∃ u', Sys.Step u .interrupt u' ∧ t.Shows u' := by
  obtain ⟨q, l, rfl, hshown⟩ := h
  rw [hwaiting] at hshown
  obtain ⟨hp, rfl, rfl⟩ := hshown
  subst hcall
  exact ⟨_, ⟨hp, 0, rfl⟩, _, _, rfl, hp, rfl, rfl⟩

theorem Shows.epollWait (h : s.Shows u) (hstep : Step s (.call (.epollWait r)) t) :
    Matched Sys.Step Shows t u (label ⟨s, .call (.epollWait r), t⟩) := by
  obtain ⟨⟨⟨hwaiting, -⟩, -⟩, rfl⟩ := hstep
  have hwaiting : s.poller = .waiting := hwaiting
  have hquiet : ∀ pc, s.Shown s.base.queue.mPoll s.base.looper pc → s.call (.epollWait r) =
      ⟨s.base, pc⟩ → (s.call (.epollWait r)).Shows u := by
    intro pc hpc hcall
    obtain ⟨q, l, rfl, hshown⟩ := h
    rw [hwaiting] at hshown
    obtain ⟨-, rfl, rfl⟩ := hshown
    rw [hcall]
    exact ⟨_, _, rfl, hpc⟩
  have hp : s.Polling := by
    obtain ⟨q, l, rfl, hshown⟩ := h
    exact hshown.polling (by simp [hwaiting])
  cases r with
  | events =>
    by_cases hcount : 0 < s.base.queue.mPoll.count
    · simp only [label, hcount, if_true]
      exact hquiet .reading ⟨hp, hcount, rfl, rfl⟩ (by simp [call, pollSys, PollSys.exec, hcount])
    · simp only [label, hcount, if_false]
      exact h.interrupt hwaiting (by simp [call, pollSys, PollSys.exec, hcount])
  | timeout => exact hquiet (.done .timeout) ⟨hp, rfl, rfl⟩ (by simp [call, pollSys, PollSys.exec])
  | eintr => exact h.interrupt hwaiting (by simp [call, pollSys, PollSys.exec])
  | error => exact hquiet (.done .error) ⟨hp, rfl, rfl⟩ (by simp [call, pollSys, PollSys.exec])

/-- `pollInner` is called and returns without a step of `Sys`. -/
theorem Shows.pollInner (h : s.Shows u) (hstep : Step s (.call .pollInner) t) : t.Shows u := by
  obtain ⟨⟨hout, -, hp⟩, rfl⟩ := hstep
  have hout : s.poller = .outside := hout
  obtain ⟨q, l, rfl, hshown⟩ := h
  rw [hout] at hshown
  obtain ⟨rfl, rfl⟩ := hshown
  refine ⟨_, _, rfl, ?_⟩
  simp only [call, pollSys, PollSys.exec]
  exact ⟨hp rfl, rfl, rfl⟩

theorem Shows.ret (h : s.Shows u) (hstep : Step s (.call .ret) t) : t.Shows u := by
  obtain ⟨⟨⟨r, hr⟩, -⟩, rfl⟩ := hstep
  have hr : s.poller = .done r := hr
  obtain ⟨q, l, rfl, hshown⟩ := h
  rw [hr] at hshown
  refine ⟨q, l, rfl, ?_⟩
  cases r with
  | wake =>
    obtain ⟨-, rfl, rfl⟩ := hshown
    exact ⟨rfl, by simp [call, hr]⟩
  | _ =>
    obtain ⟨-, rfl, rfl⟩ := hshown
    exact ⟨rfl, by simp [call, hr]⟩

/-- Every step is the step of `Sys` that `label` gives it, or none. -/
theorem Shows.step (h : s.Shows u) {b : CallAct} (hstep : Step s b t) :
    Matched Sys.Step Shows t u (label ⟨s, b, t⟩) := by
  cases b with
  | locked a => exact h.locked hstep
  | call a =>
    cases a with
    | wake p => exact absurd rfl (hstep.1.2.1 p)
    | write p eintr =>
      cases eintr with
      | true =>
        obtain ⟨-, rfl⟩ := hstep
        have hcall : s.call (.write p true) = s := by simp [call, pollSys, PollSys.exec]
        simp only [label, hcall]
        exact h
      | false => exact h.write hstep
    | pollInner => exact h.pollInner hstep
    | epollWait r => exact h.epollWait hstep
    | read eintr =>
      cases eintr with
      | true =>
        obtain ⟨-, rfl⟩ := hstep
        have hcall : s.call (.read true) = s := by simp [call, pollSys, PollSys.exec]
        simp only [label, hcall]
        exact h
      | false =>
        rcases h.read hstep with ⟨hno, hshows⟩ | ⟨hdone, hshows⟩
        · simp only [label, hno, if_false]
          exact hshows
        · simp only [label, hdone, if_true]
          exact hshows
    | ret => exact h.ret hstep

/-! ### Runs of calls -/

theorem step_locked {b : Sys} (ha : a.Locked) (h : Sys.Step s.base a b) :
    Step s (.locked a) ⟨b, s.poller⟩ := ⟨⟨ha, h.1⟩, h.2, rfl⟩

theorem shows_start : (start mem mPoll).Shows (.start mem mPoll) := ⟨_, _, rfl, rfl, rfl⟩

/-- Every run of calls is a run of `Sys`: each wake is its last write, each `pollOnce` that has seen a
    byte its last read, and in the end all but the pipe and the looper's place in `pollOnce` is the
    same. -/
theorem calls_refine (hrun : Runs mem mPoll tr s) : ∃ tr' u, Sys.Runs mem mPoll tr' u ∧
    tr'.map Taken.act = tr.filterMap label ∧ s.Shows u :=
  hrun.simulate label shows_start fun _ _ hstep _ h => h.step hstep

/-- A message is sent; the write is cut short once, `pollInner` times out before it, and a read is cut
    short once: in `Sys` these are five steps. -/
theorem calls_refine_run : ∃ tr s, Runs twoMessages pipe tr s ∧
    tr.filterMap label = [.enqueue 0 0 5, .wake 0, .poll, .next 10, .dispatch 10] ∧
    tr.length = 13 ∧ ∃ tr' u, Sys.Runs twoMessages pipe tr' u ∧
      tr'.map Taken.act = tr.filterMap label ∧ s.Shows u := by
  have h₀ : Runs twoMessages pipe [] _ := Run.nil
  have h₁ := h₀.snoc (a := CallAct.call .pollInner) ⟨⟨rfl, nofun, fun _ => ⟨_, rfl⟩⟩, rfl⟩
  have h₂ := h₁.snoc (step_locked (a := .enqueue 0 0 5) trivial ⟨rfl, 1, rfl⟩)
  have h₃ := h₂.snoc (a := CallAct.call (.epollWait .timeout))
    ⟨⟨⟨rfl, fun _ => rfl⟩, nofun, nofun⟩, rfl⟩
  have h₄ := h₃.snoc (a := CallAct.call (.write 0 true)) ⟨⟨rfl, nofun, nofun⟩, rfl⟩
  have h₅ := h₄.snoc (a := CallAct.call .ret) ⟨⟨⟨_, rfl⟩, nofun, nofun⟩, rfl⟩
  have h₆ := h₅.snoc (a := CallAct.call (.write 0 false)) ⟨⟨rfl, nofun, nofun⟩, rfl⟩
  have h₇ := h₆.snoc (a := CallAct.call .pollInner) ⟨⟨rfl, nofun, fun _ => ⟨_, rfl⟩⟩, rfl⟩
  have h₈ := h₇.snoc (a := CallAct.call (.epollWait .events)) ⟨⟨⟨rfl, nofun⟩, nofun, nofun⟩, rfl⟩
  have h₉ := h₈.snoc (a := CallAct.call (.read true)) ⟨⟨rfl, nofun, nofun⟩, rfl⟩
  have h₁₀ := h₉.snoc (a := CallAct.call (.read false)) ⟨⟨rfl, nofun, nofun⟩, rfl⟩
  have h₁₁ := h₁₀.snoc (a := CallAct.call .ret) ⟨⟨⟨_, rfl⟩, nofun, nofun⟩, rfl⟩
  have h₁₂ := h₁₁.snoc (step_locked (a := .next 10) trivial ⟨rfl, 0, rfl⟩)
  have h₁₃ := h₁₂.snoc (step_locked (a := .dispatch 10) trivial ⟨⟨_, rfl⟩, 0, rfl⟩)
  exact ⟨_, _, h₁₃, rfl, rfl, calls_refine h₁₃⟩

/-- If the step passes a message to `enqueueMessage`, it is alive and was not passed before. -/
def Fresh (s : CallSys) (b : CallAct) : Prop :=
  ∀ p m when, b = .locked (.enqueue p m when) →
    m ∉ s.base.submitted ∧ (s.base.queue.mem m).isSome

/-- What `Sys` shows keeps its invariant. -/
def Safe (s : CallSys) : Prop := ∃ u xs, s.Shows u ∧ u.Safe xs

theorem label_enqueue {b : CallAct} {m : Addr} {when : ℤ}
    (h : label ⟨s, b, t⟩ = some (.enqueue p m when)) : b = .locked (.enqueue p m when) := by
  cases b with
  | locked a => exact congrArg CallAct.locked (Option.some.inj h)
  | call a =>
    rcases a with _ | ⟨_, _ | _⟩ | _ | ⟨_ | _ | _ | _⟩ | ⟨_ | _⟩ | _
    all_goals simp [label] at h

theorem Safe.step {b : CallAct} (h : s.Safe) (hstep : Step s b t) (hfresh : s.Fresh b) : t.Safe := by
  obtain ⟨u, xs, hshows, hsafe⟩ := h
  have hmatch := hshows.step hstep
  cases hlabel : label ⟨s, b, t⟩ with
  | none =>
    rw [hlabel] at hmatch
    exact ⟨u, xs, hmatch, hsafe⟩
  | some a =>
    rw [hlabel] at hmatch
    obtain ⟨u', hstep', hshows'⟩ := hmatch
    have hfresh' : u.Fresh a := by
      rintro p m when rfl
      obtain ⟨q, l, rfl, -⟩ := hshows
      exact hfresh p m when (label_enqueue hlabel)
    obtain ⟨ys, hsafe'⟩ := hsafe.step hstep' hfresh'
    exact ⟨u', ys, hshows', hsafe'⟩

theorem Safe.of_run (hrun : Runs mem mPoll tr s) (hfresh : ∀ x ∈ tr, x.pre.Fresh x.act) : s.Safe :=
  hrun.invariant ⟨_, [], shows_start, Sys.safe_start⟩ fun x hx hstep h => h.step hstep (hfresh x hx)

/-- Between any two calls no step meets a message that is gone. -/
theorem Safe.not_dangling (h : s.Safe) (hen : s.Enabled (.locked a))
    (hfresh : s.Fresh (.locked a)) (n : ℕ) : Sys.exec n s.base a ≠ .fault .dangling := by
  intro hfault
  obtain ⟨ha, hen⟩ := hen
  obtain ⟨u, xs, hshows, hsafe⟩ := h
  rcases em (Sys.Act.ofLooper a) with hl | hl
  · obtain ⟨rfl, -⟩ := hshows.eq (not_polling hen ha hl)
    refine hsafe.not_dangling hen ?_ n hfault
    rintro p m when rfl
    exact absurd hl id
  · obtain ⟨q, l, rfl, -⟩ := hshows
    refine hsafe.not_dangling ((enabled_withPoll ha hl).mpr hen) ?_ n ?_
    · rintro p m when rfl
      exact hfresh p m when rfl
    · rw [Sys.exec_withPoll ha hl, hfault, Outcome.fault_bind]

/-- Every run of calls in which every message is enqueued once at most accepts, dispatches and recycles
    it once at most; what is recycled is gone, and no further step of any thread reads or writes a
    message that is gone. -/
theorem calls_at_most_once (hrun : Runs mem mPoll tr s) (hfresh : ∀ x ∈ tr, x.pre.Fresh x.act) :
    s.base.acceptedMsgs.Nodup ∧ s.base.dispatchedMsgs.Nodup ∧ s.base.recycledMsgs.Nodup ∧
    (∀ m ∈ s.base.recycledMsgs, s.base.queue.mem m = none) ∧
    ∀ a, s.Enabled (.locked a) → s.Fresh (.locked a) → ∀ n, Sys.exec n s.base a ≠ .fault .dangling := by
  have h := Safe.of_run hrun hfresh
  refine ⟨?_, ?_, ?_, ?_, fun a hen hf n => h.not_dangling hen hf n⟩
  all_goals obtain ⟨u, xs, ⟨q, l, rfl, -⟩, hsafe⟩ := h
  · exact hsafe.once
  · exact hsafe.dispatched_nodup
  · have hret := (List.nodup_append.mp hsafe.nodup).2.1
    rw [hsafe.held] at hret
    exact (List.nodup_append.mp hret).1
  · exact hsafe.gone

/-- A message is sent and delivered. -/
theorem calls_at_most_once_run : ∃ tr s, Runs twoMessages pipe tr s ∧
    s.base.log = [.returned 0 1 10, .dispatched 0 0 10, .handled 0, .notified, .recycled 0] ∧
    s.base.acceptedMsgs.Nodup ∧ s.base.recycledMsgs.Nodup := by
  have h₀ : Runs twoMessages pipe [] _ := Run.nil
  have h₁ := h₀.snoc (step_locked (a := .enqueue 0 0 5) trivial ⟨rfl, 1, rfl⟩)
  have h₂ := h₁.snoc (a := CallAct.call (.write 0 false)) ⟨⟨rfl, nofun, nofun⟩, rfl⟩
  have h₃ := h₂.snoc (a := CallAct.call .pollInner) ⟨⟨rfl, nofun, fun _ => ⟨_, rfl⟩⟩, rfl⟩
  have h₄ := h₃.snoc (a := CallAct.call (.epollWait .events)) ⟨⟨⟨rfl, nofun⟩, nofun, nofun⟩, rfl⟩
  have h₅ := h₄.snoc (a := CallAct.call (.read false)) ⟨⟨rfl, nofun, nofun⟩, rfl⟩
  have h₆ := h₅.snoc (a := CallAct.call .ret) ⟨⟨⟨_, rfl⟩, nofun, nofun⟩, rfl⟩
  have h₇ := h₆.snoc (step_locked (a := .next 10) trivial ⟨rfl, 0, rfl⟩)
  have h₈ := h₇.snoc (step_locked (a := .dispatch 10) trivial ⟨⟨_, rfl⟩, 0, rfl⟩)
  have h₉ := h₈.snoc (step_locked (a := .recycle) trivial ⟨⟨_, rfl⟩, 0, rfl⟩)
  have h := calls_at_most_once h₉ ?_
  · exact ⟨_, _, h₉, rfl, h.1, h.2.2.1⟩
  · simp only [List.nil_append, List.cons_append, List.forall_mem_cons]
    refine ⟨?_, ?_, ?_, ?_, ?_, ?_, ?_, ?_, ?_, by simp⟩
    · rintro _ _ _ ⟨⟩
      decide
    all_goals rintro _ _ _ ⟨⟩

/-! ### The looper alone -/

/-- A call of the poller that nothing cuts short. -/
def CallAct.OfPoller : CallAct → Prop
  | .call .pollInner => True
  | .call (.epollWait .events) => True
  | .call (.read false) => True
  | .call .ret => True
  | _ => False

/-- By its own calls the looper comes from `s` to `next`, with the queue as it is. -/
def Returns (s : CallSys) : Prop :=
  ∃ tr t, Run Step s tr t ∧ (∀ x ∈ tr, CallAct.OfPoller x.act) ∧ t.base.looper = .inNext ∧
    t.base.queue.mInboundQueue = s.base.queue.mInboundQueue

theorem Returns.cons {b : CallAct} (h : t.Returns) (hstep : Step s b t) (hb : CallAct.OfPoller b)
    (hqueue : t.base.queue.mInboundQueue = s.base.queue.mInboundQueue) : s.Returns := by
  obtain ⟨tr, u, hrun, hof, hpc, hsame⟩ := h
  exact ⟨_, u, hrun.cons hstep, List.forall_mem_cons.mpr ⟨hb, hof⟩, hpc, hsame.trans hqueue⟩

theorem returns_of_done (h : s.poller = .done .wake) : s.Returns := by
  refine ⟨_, _, Run.nil.snoc (a := CallAct.call .ret) ⟨⟨⟨_, h⟩, nofun, nofun⟩, rfl⟩, ?_, ?_, rfl⟩
  · exact List.forall_mem_singleton.mpr trivial
  · simp [call, h]

/-- `p` is what the calls are made on, and the queue is that of `s`. -/
def CallsOn (s : CallSys) (p : PollSys) (c : CallSys) : Prop :=
  c.pollSys = p ∧ c.base.queue.mInboundQueue = s.base.queue.mInboundQueue

/-- The reads come to an end as they do in `PollSys`. -/
theorem returns_of_reading (h : s.poller = .reading) : s.Returns := by
  obtain ⟨tr, p, hrun, hreads, hdone⟩ := PollSys.reads_end _ s.pollSys rfl h
  have hlift : ∀ x ∈ tr, PollSys.Step x.pre x.act x.post → ∀ c, s.CallsOn x.pre c →
      Matched Step s.CallsOn x.post c (some (.call x.act)) := by
    rintro x hx ⟨hen, hpost⟩ c ⟨hc, hqueue⟩
    rw [hreads x hx] at hen hpost ⊢
    refine ⟨c.call (.read false), ⟨⟨by rwa [hc], nofun, nofun⟩, rfl⟩, ?_, hqueue⟩
    rw [hpost, ← hc]
    rfl
  obtain ⟨tr', t, hrun', hacts, rfl, hqueue⟩ :=
    hrun.simulate (fun x => some (CallAct.call x.act)) ⟨rfl, rfl⟩ hlift
  have hread : ∀ b ∈ tr'.map Taken.act, b = .call (.read false) := by
    rw [hacts]
    intro b hb
    obtain ⟨x, hx, hxb⟩ := List.mem_filterMap.mp hb
    rw [← Option.some.inj hxb, hreads x hx]
  obtain ⟨tr₂, u, hrun₂, hof, hpc, hsame⟩ := returns_of_done (s := t) hdone
  refine ⟨tr' ++ tr₂, u, hrun'.append hrun₂, ?_, hpc, hsame.trans hqueue⟩
  refine List.forall_mem_append.mpr ⟨fun x hx => ?_, hof⟩
  rw [hread _ (List.mem_map_of_mem hx)]
  trivial

theorem returns_of_waiting (h : s.poller = .waiting) (hcount : 0 < s.base.queue.mPoll.count) :
    s.Returns := by
  have hcall : s.call (.epollWait .events) = ⟨s.base, .reading⟩ := by
    simp [call, pollSys, PollSys.exec, hcount]
  have hret : (s.call (.epollWait .events)).Returns := by
    rw [hcall]
    exact returns_of_reading rfl
  have hen : s.Enabled (.call (.epollWait .events)) := ⟨⟨h, by simp⟩, by simp, by simp⟩
  exact hret.cons ⟨hen, rfl⟩ trivial rfl

theorem returns_of_outside (h : s.poller = .outside) (hp : s.Polling)
    (hcount : 0 < s.base.queue.mPoll.count) : s.Returns := by
  have hret : (s.call .pollInner).Returns := returns_of_waiting rfl hcount
  exact hret.cons (b := .call .pollInner) ⟨⟨h, nofun, fun _ => hp⟩, rfl⟩ trivial rfl

/-- A looper in `pollOnce` whose poller sees a byte, or has seen one, comes to `next` by its own calls,
    from every point of `pollOnce` and `pollInner`. -/
theorem pollOnce_returns (hp : s.Polling) (hseen : s.pollSys.Seen) : s.Returns := by
  rcases hseen with hcount | hreading | hdone
  · cases hpc : s.poller with
    | outside => exact returns_of_outside hpc hp hcount
    | waiting => exact returns_of_waiting hpc hcount
    | reading => exact returns_of_reading hpc
    | done r =>
      rcases eq_or_ne r .wake with rfl | hne
      · exact returns_of_done hpc
      · have hret : (s.call .ret).Returns := by
          refine returns_of_outside rfl ?_ hcount
          obtain ⟨timeout, htimeout⟩ := hp
          exact ⟨timeout, by simp [call, hpc, hne, htimeout]⟩
        exact hret.cons (b := .call .ret) ⟨⟨⟨r, hpc⟩, nofun, nofun⟩, rfl⟩ trivial rfl
  · exact returns_of_reading hreading
  · exact returns_of_done hdone

/-- With a byte in the pipe and the poller back from a timeout. -/
theorem pollOnce_returns_timeout : Returns ⟨.start twoMessages pipe.wake, .done .timeout⟩ :=
  pollOnce_returns ⟨_, rfl⟩ (Or.inl (by decide))

end CallSys

end ThreadManager
