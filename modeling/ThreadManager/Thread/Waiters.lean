import ThreadManager.Schemes.Monitor
import ThreadManager.Thread.LifeCycle

/-! The threads that wait for the exit of a `Thread` object.

    `ThreadSys` lets a waiter re-test `mRunning` at any time. Here a waiter is asleep on
    `mThreadExitedCondition` until `_threadLoop` broadcasts, or until it wakes for no reason, and only
    then does it re-test. Nobody sleeps through the exit, although `mRunning` may be set again before a
    waiter comes to look: whoever is asleep is asleep while a child is active, and that child can always
    go on. -/

namespace ThreadManager
open Schemes

namespace ThreadSys

/-- A thread that is in a wait after its section has gone to sleep in it. -/
def sleepIf (s : ThreadSys) (c : Thr) : Signal Thr :=
  if (s.waiting c).isSome then .sleep c else .none

/-- What a section does to `mThreadExitedCondition`. -/
def exitSignal (s : ThreadSys) : ThreadAct → Signal Thr
  | .call c f => (s.call c f).sleepIf c
  | .wakeUp c => (s.exec (.wakeUp c)).sleepIf c
  | .child k .close => match s.pc k with
    | some (.closing result) => if (s.thread.endIteration result).1 then .broadcast else .none
    | _ => .none
  | _ => .none

/-- The thread that comes out of `wait` in a section. -/
def retests : ThreadAct → Option Thr
  | .wakeUp c => some c
  | _ => none

/-- The object, its callers and its children, and which of the waiters are asleep. -/
abbrev WaitSys := Monitor ThreadSys Thr

def MonitorStep : WaitSys → MonitorAct ThreadAct Thr → WaitSys → Prop :=
  Monitor.Step Step exitSignal retests

variable {s t : ThreadSys} {a : ThreadAct} {c : Thr} {k : ℕ} {o : Option ℕ} {f : WaitCall}
  {m n : WaitSys} {tr : List (Taken WaitSys (MonitorAct ThreadAct Thr))} {pc : ChildPc}

/-! ### One section -/

theorem WaitStep.running (h : s.WaitStep c o t) (hw : (t.waiting c).isSome) :
    t.thread.mRunning = true := by
  obtain ⟨pending, ⟨hr, -, f, rfl⟩ | ⟨-, rfl⟩⟩ := h
  · exact hr
  · simp [record] at hw

/-- A call in which the caller goes to sleep. -/
theorem call_running {f : ThreadCall} (h : Step s (.call c f) t) (hw : (t.waiting c).isSome) :
    t.thread.mRunning = true := by
  have hno : s.waiting c = none := h.1.1.2.1
  cases f with
  | run created =>
    rcases step_run h with ⟨-, rfl⟩ | ⟨-, rfl⟩ | ⟨-, id, -, -, rfl⟩
    all_goals simp [record, goto, hno] at hw
  | requestExit =>
    obtain ⟨-, rfl⟩ := h
    simp [exec, call, hno] at hw
  | requestExitAndWait =>
    obtain ⟨-, -, ⟨-, rfl⟩ | ⟨-, hwait⟩⟩ := step_requestExitAndWait h
    · simp [hno] at hw
    · exact hwait.running hw
  | join =>
    obtain ⟨-, -, ⟨-, rfl⟩ | ⟨-, hwait⟩⟩ := step_join h
    · simp [hno] at hw
    · exact hwait.running hw
  | exitPending =>
    obtain ⟨-, rfl⟩ := h
    simp [hno] at hw

theorem sleepIf_eq (h : s.sleepIf c = .sleep d) : d = c ∧ (s.waiting c).isSome := by
  unfold sleepIf at h
  split at h
  case isTrue hw => exact ⟨(Signal.sleep.inj h).symm, hw⟩
  case isFalse => cases h

/-- Threads go to sleep while a child is active, and in a wait. -/
theorem sleep_running (h : Step s a t) (hsig : s.exitSignal a = .sleep c) :
    t.thread.mRunning = true ∧ (t.waiting c).isSome := by
  have ht := h.2
  unfold exitSignal at hsig
  split at hsig
  case h_1 d f =>
    obtain ⟨rfl, hw⟩ := sleepIf_eq hsig
    rw [show s.call _ f = t from ht.symm] at hw
    exact ⟨call_running h hw, hw⟩
  case h_2 d =>
    obtain ⟨rfl, hw⟩ := sleepIf_eq hsig
    rw [← ht] at hw
    obtain ⟨f, o, -, hwait⟩ := step_wakeUp h
    exact ⟨hwait.running hw, hw⟩
  case h_3 =>
    split at hsig
    · split at hsig <;> cases hsig
    · cases hsig
  case h_4 => cases hsig

/-- A run ends with a broadcast. -/
theorem running_kept (h : Step s a t) (hsig : s.exitSignal a ≠ .broadcast)
    (hr : s.thread.mRunning = true) : t.thread.mRunning = true := by
  rcases step_cases h with ⟨c, created, rfl⟩ | ⟨k, b, rfl⟩ | ⟨_, _, _, _, rfl, -⟩
  · rcases step_run h with ⟨-, rfl⟩ | ⟨hno, -⟩ | ⟨hno, -⟩
    · exact hr
    · rw [hr] at hno
      cases hno
    · rw [hr] at hno
      cases hno
  · rcases b.close_or_exit_or with rfl | rfl | ⟨hclose, hexit⟩
    · obtain ⟨result, hpc, ⟨hstop, -⟩ | ⟨-, -, rfl⟩⟩ := step_close h
      · refine absurd ?_ hsig
        simp [exitSignal, hpc, Thread.endIteration, hstop]
      · exact hr
    · obtain ⟨-, rfl⟩ := h
      exact hr
    · obtain ⟨_, _, _, _, -, -, rfl⟩ := step_moves h hclose hexit
      exact hr
  · exact hr

/-- Only its own sections bring a thread into a wait or out of it. -/
theorem WaitStep.waiting_other {d : Thr} (h : s.WaitStep d o t) (hd : c ≠ d) :
    t.waiting c = s.waiting c := by
  obtain ⟨pending, ⟨-, -, f, rfl⟩ | ⟨-, rfl⟩⟩ := h
  · exact Function.update_of_ne hd _ _
  · exact Function.update_of_ne hd _ _

theorem waiting_other (h : Step s a t) (hcall : ∀ f, a ≠ .call c f) (hwake : a ≠ .wakeUp c) :
    t.waiting c = s.waiting c := by
  cases a with
  | start p id =>
    obtain ⟨-, rfl⟩ := h
    rfl
  | finish p =>
    obtain ⟨-, rfl⟩ := h
    rfl
  | call d f =>
    have hd : c ≠ d := by
      rintro rfl
      exact hcall f rfl
    cases f with
    | run created =>
      rcases step_run h with ⟨-, rfl⟩ | ⟨-, rfl⟩ | ⟨-, id, -, -, rfl⟩
      all_goals rfl
    | requestExit =>
      obtain ⟨-, rfl⟩ := h
      rfl
    | requestExitAndWait =>
      obtain ⟨-, -, ⟨-, rfl⟩ | ⟨-, hwait⟩⟩ := step_requestExitAndWait h
      · rfl
      · exact hwait.waiting_other hd
    | join =>
      obtain ⟨-, -, ⟨-, rfl⟩ | ⟨-, hwait⟩⟩ := step_join h
      · rfl
      · exact hwait.waiting_other hd
    | exitPending =>
      obtain ⟨-, rfl⟩ := h
      rfl
  | wakeUp d =>
    obtain ⟨f, o, -, hwait⟩ := step_wakeUp h
    exact hwait.waiting_other fun hd => hwake (hd ▸ rfl)
  | child k b =>
    rcases b.close_or_exit_or with rfl | rfl | ⟨hclose, hexit⟩
    · obtain ⟨result, -, ⟨-, rfl⟩ | ⟨-, -, rfl⟩⟩ := step_close h
      all_goals rfl
    · obtain ⟨-, rfl⟩ := h
      rfl
    · obtain ⟨_, _, _, _, -, -, rfl⟩ := step_moves h hclose hexit
      rfl

/-! ### Runs -/

/-- Whoever is asleep is in a wait, while a child is active. -/
structure Sleepers (m : WaitSys) : Prop where
  lifeCycle : m.shared.LifeCycle
  running : m.NoLost fun s => s.thread.mRunning = true
  waiting : ∀ c, m.asleep c = true → (m.shared.waiting c).isSome

theorem sleepers_start : Sleepers (.start start) where
  lifeCycle := lifeCycle_start
  running := Monitor.noLost_start _
  waiting := by
    intro c hc
    cases hc

theorem Sleepers.step {b : MonitorAct ThreadAct Thr} (h : Sleepers m) (hstep : MonitorStep m b n) :
    Sleepers n := by
  have hrunning := h.running.of_step hstep (fun _ _ _ _ hst hsig => (sleep_running hst hsig).1)
    fun _ _ _ hst hsig hr => running_kept hst hsig hr
  cases b with
  | locked a =>
    obtain ⟨hst, hawake, hn⟩ := hstep
    refine ⟨h.lifeCycle.step hst, hrunning, ?_⟩
    intro c hc
    rw [hn] at hc
    rcases Monitor.asleep_after hc with hsig | ⟨-, hasleep⟩
    · exact (sleep_running hst hsig).2
    · have hw := h.waiting c hasleep
      rw [waiting_other hst]
      · exact hw
      · rintro f rfl
        rw [hst.1.1.2.1] at hw
        cases hw
      · rintro rfl
        rw [hawake c rfl] at hasleep
        cases hasleep
  | spurious d =>
    obtain rfl := hstep
    refine ⟨h.lifeCycle, hrunning, ?_⟩
    intro c hc
    rcases Monitor.asleep_after hc with hsig | ⟨-, hasleep⟩
    · cases hsig
    · exact h.waiting c hasleep

theorem Sleepers.run (h : Sleepers m) (hrun : Run MonitorStep m tr n) : Sleepers n :=
  hrun.invariant h fun _ _ hstep hpre => hpre.step hstep

/-- Without the sleepers it is a run of `ThreadSys`, so what holds in all of those holds here. -/
theorem runs_shared (hrun : Run MonitorStep (.start start) tr m) : ∃ tr', Runs tr' m.shared ∧
    tr'.map Taken.act = tr.filterMap fun x => x.act.label :=
  Monitor.run_shared hrun

/-- A waiter that finds the object not running returns its status. -/
theorem Sleepers.returns (h : Sleepers m) (hw : m.shared.waiting c = some (f, o))
    (hr : m.shared.thread.mRunning = false) : ∃ n, MonitorStep m (.locked (.wakeUp c)) n ∧
      n.shared.waiting c = none ∧
      n.shared.log = m.shared.log ++ [.waited c o m.shared.thread.mStatus] := by
  have hawake : m.asleep c = false := by
    cases hc : m.asleep c with
    | false => rfl
    | true =>
      have hrunning : m.shared.thread.mRunning = true := h.running c hc
      rw [hr] at hrunning
      cases hrunning
  have hst : Step m.shared (.wakeUp c) (m.shared.exec (.wakeUp c)) := ⟨by simp [Enabled, hw], rfl⟩
  refine ⟨m.after (m.shared.exec (.wakeUp c)) _, ⟨hst, ?_, rfl⟩, ?_⟩
  · intro d hd
    cases hd
    exact hawake
  · obtain ⟨f', o', hw', pending, ⟨hr', -⟩ | ⟨-, ht⟩⟩ := step_wakeUp hst
    · rw [hr] at hr'
      cases hr'
    · obtain ⟨rfl, rfl⟩ := Prod.mk.inj (Option.some.inj (hw.symm.trans hw'))
      simp only [Monitor.after]
      rw [ht]
      exact ⟨Function.update_self _ _ _, rfl⟩

/-! ### The child alone -/

/-- How many of its own steps bring a child to its end. -/
def stepsLeft (s : ThreadSys) : ChildPc → ℕ
  | .exited => 0
  | .closing result => if result = false ∨ s.thread.mExitPending then 1 else 9
  | .inThreadLoop => 2
  | .callingThreadLoop => 3
  | .testingExit => 4
  | .readyToRunReturned => 5
  | .inReadyToRun => 6
  | .top => 8

/-- The steps that do. -/
def nextAct : ChildPc → ChildAct
  | .top => .callReadyToRun
  | .inReadyToRun => .readyToRunReturns noError
  | .readyToRunReturned => .readStatus
  | .testingExit => .exitPending
  | .callingThreadLoop => .callThreadLoop
  | .inThreadLoop => .threadLoopReturns false
  | .closing _ => .close
  | .exited => .exit

theorem enabled_nextAct (hfree : s.waiting (.child k) = none) (hpc : s.pc k = some pc) :
    s.Enabled (.child k (nextAct pc)) := by
  refine ⟨hfree, pc, hpc, ?_⟩
  cases pc <;> first | rfl | exact ⟨_, rfl⟩

theorem Moves.stepsLeft_lt {b : ChildAct} {pc' : ChildPc} {status : Status} {es : List ThreadEvent}
    (h : s.Moves k b pc pc' status es) (hb : b = nextAct pc) : s.stepsLeft pc' < s.stepsLeft pc := by
  cases h with
  | pending hpending => simp [stepsLeft, hpending]
  | threadLoopReturns result =>
    cases hb
    simp [stepsLeft]
  | _ => simp [stepsLeft]

/-- The step ends the run, or leaves fewer to go. -/
theorem stepsLeft_lt (h : Step s (.child k (nextAct pc)) t) (hpc : s.pc k = some pc)
    (hne : pc ≠ .exited) : t.thread.mRunning = false ∨
      t.thread.mRunning = s.thread.mRunning ∧
        ∃ pc', t.pc k = some pc' ∧ pc' ≠ .exited ∧ t.stepsLeft pc' < s.stepsLeft pc := by
  cases pc with
  | exited => exact absurd rfl hne
  | closing result =>
    obtain ⟨result', hpc', ⟨-, rfl⟩ | ⟨rfl, hpending, rfl⟩⟩ := step_close h
    · exact Or.inl rfl
    · obtain rfl := ChildPc.closing.inj (Option.some.inj (hpc.symm.trans hpc'))
      refine Or.inr ⟨rfl, .top, Function.update_self _ _ _, nofun, ?_⟩
      simp [stepsLeft, hpending]
  | _ =>
    right
    obtain ⟨pc₀, pc', status, es, hmoves, hpc', rfl⟩ := step_moves h nofun nofun
    obtain rfl := Option.some.inj (hpc.symm.trans hpc')
    refine ⟨rfl, pc', Function.update_self _ _ _, hmoves.ne_exited.2, ?_⟩
    exact hmoves.stepsLeft_lt rfl

theorem monitorStep (h : Step m.shared a t) (hno : retests a = none) :
    MonitorStep m (.locked a) (m.after t (m.shared.exitSignal a)) := by
  refine ⟨h, ?_, rfl⟩
  intro c hc
  rw [hno] at hc
  cases hc

/-- Steps of child `k` alone, after which the object is not running, with the same threads in a wait. -/
def Ends (m : WaitSys) (k : ℕ) : Prop :=
  ∃ tr n, Run MonitorStep m tr n ∧ (∀ x ∈ tr, ∃ b, x.act = .locked (.child k b)) ∧
    n.shared.thread.mRunning = false ∧ n.shared.waiting = m.shared.waiting

theorem Ends.cons {b : ChildAct} (h : Ends n k) (hstep : MonitorStep m (.locked (.child k b)) n) :
    Ends m k := by
  obtain ⟨tr, u, hrun, hacts, hr, hwaiting⟩ := h
  refine ⟨_, u, hrun.cons hstep, List.forall_mem_cons.mpr ⟨⟨b, rfl⟩, hacts⟩, hr, ?_⟩
  rw [hwaiting]
  funext c
  exact waiting_other hstep.1 (by simp) (by simp)

theorem Sleepers.ends (h : Sleepers m) (hpc : m.shared.pc k = some pc) (hne : pc ≠ .exited) :
    Ends m k := by
  induction hj : m.shared.stepsLeft pc using Nat.strong_induction_on generalizing m pc with
  | _ j ih =>
    have hst : Step m.shared (.child k (nextAct pc)) (m.shared.exec (.child k (nextAct pc))) :=
      ⟨enabled_nextAct (h.lifeCycle.free k) hpc, rfl⟩
    obtain ⟨n, hn, hstep⟩ : ∃ n, n.shared = m.shared.exec (.child k (nextAct pc)) ∧
        MonitorStep m (.locked (.child k (nextAct pc))) n :=
      ⟨_, rfl, monitorStep hst rfl⟩
    rw [← hn] at hst
    rcases stepsLeft_lt hst hpc hne with hr | ⟨-, pc', hpc', hne', hlt⟩
    · exact Ends.cons ⟨[], n, .nil, by simp, hr, rfl⟩ hstep
    · rw [hj] at hlt
      exact (ih _ hlt (h.step hstep) hpc' hne' rfl).cons hstep

/-! ### What a waiter can rely on -/

/-- In every state that a run reaches: a waiter that is asleep is so while a child is active, which is
    itself in no wait and can go on; and once no child is active, its next section returns the status,
    without anyone having to wake it. -/
theorem no_lost_exit (hrun : Run MonitorStep (.start start) tr m)
    (hw : m.shared.waiting c = some (f, o)) :
    (m.asleep c = true → m.shared.thread.mRunning = true ∧
      m.shared.waiting (.child m.shared.runs) = none ∧
      ∃ b, m.shared.Enabled (.child m.shared.runs b)) ∧
    (m.shared.thread.mRunning = false → ∃ n, MonitorStep m (.locked (.wakeUp c)) n ∧
      n.shared.waiting c = none ∧
      n.shared.log = m.shared.log ++ [.waited c o m.shared.thread.mStatus]) := by
  have h := sleepers_start.run hrun
  refine ⟨?_, h.returns hw⟩
  intro hc
  have hr : m.shared.thread.mRunning = true := h.running c hc
  obtain ⟨pc, hpc, -⟩ := h.lifeCycle.running hr
  have hfree := h.lifeCycle.free m.shared.runs
  exact ⟨hr, hfree, _, enabled_nextAct hfree hpc⟩

/-- No reachable state is a deadlock for a waiter: there are steps of the active child alone, and then
    one of the waiter, with which it returns. -/
theorem waiter_can_return (hrun : Run MonitorStep (.start start) tr m)
    (hw : m.shared.waiting c = some (f, o)) : ∃ tr' n, Run MonitorStep m tr' n ∧
      (∀ x ∈ tr', x.act = .locked (.wakeUp c) ∨ ∃ b, x.act = .locked (.child m.shared.runs b)) ∧
      n.shared.waiting c = none ∧ ∃ status, n.shared.log.getLast? = some (.waited c o status) := by
  have h := sleepers_start.run hrun
  have hends : Ends m m.shared.runs := by
    cases hr : m.shared.thread.mRunning with
    | false => exact ⟨[], m, .nil, by simp, hr, rfl⟩
    | true =>
      obtain ⟨pc, hpc, hne⟩ := h.lifeCycle.running hr
      exact h.ends hpc hne
  obtain ⟨tr', u, hrun', hacts, hr, hwaiting⟩ := hends
  obtain ⟨n, hstep, hdone, hlog⟩ := (h.run hrun').returns (hwaiting ▸ hw) hr
  refine ⟨_, n, hrun'.snoc hstep, ?_, hdone, u.shared.thread.mStatus, ?_⟩
  · intro x hx
    rcases List.mem_append.mp hx with hx | hx
    · exact Or.inr (hacts x hx)
    · rw [List.mem_singleton.mp hx]
      exact Or.inl rfl
  · rw [hlog, List.getLast?_concat]

/-- A thread comes and calls `run`. -/
theorem enabled_start : start.Enabled (.start 0 1) := ⟨rfl, rfl, by decide, by simp [start]⟩

theorem enabled_run : (start.exec (.start 0 1)).Enabled (.call (.other 0) (.run (some 2))) := by
  refine ⟨canCall_other rfl rfl, ?_⟩
  rintro i ⟨⟩
  exact ⟨by decide, update_ne_some (by simp [start]) (by decide)⟩

/-- It joins, and is asleep. -/
theorem runs_joined : ∃ tr m, Run MonitorStep (.start start) tr m ∧
    m.shared.waiting (.other 0) = some (.join, some 1) ∧ m.asleep (.other 0) = true := by
  have h₀ : Run MonitorStep (.start start) [] _ := Run.nil
  have h₁ := h₀.snoc (monitorStep ⟨enabled_start, rfl⟩ rfl)
  have h₂ := h₁.snoc (monitorStep ⟨enabled_run, rfl⟩ rfl)
  have h₃ := h₂.snoc (monitorStep (a := .call (.other 0) .join) ⟨⟨canCall_other rfl rfl, by simp⟩, rfl⟩
    rfl)
  exact ⟨_, _, h₃, rfl, rfl⟩

theorem no_lost_exit_joined : ∃ m : WaitSys, m.asleep (.other 0) = true ∧
    m.shared.thread.mRunning = true ∧ m.shared.waiting (.child m.shared.runs) = none ∧
    ∃ b, m.shared.Enabled (.child m.shared.runs b) := by
  obtain ⟨tr, m, hrun, hw, hasleep⟩ := runs_joined
  exact ⟨m, hasleep, (no_lost_exit hrun hw).1 hasleep⟩

theorem waiter_can_return_joined : ∃ m tr n, m.shared.waiting (.other 0) = some (.join, some 1) ∧
    Run MonitorStep m tr n ∧ n.shared.waiting (.other 0) = none := by
  obtain ⟨tr, m, hrun, hw, -⟩ := runs_joined
  obtain ⟨tr', n, hrun', -, hdone, -⟩ := waiter_can_return hrun hw
  exact ⟨m, tr', n, hw, hrun', hdone⟩

end ThreadSys

end ThreadManager
