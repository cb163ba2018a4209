import ThreadManager.Schemes.Transition

/-! `class Thread` of Thread.h and Thread.cpp: the object, its callers and its children.

    A step is one section under `mLock`, or what a child does between two of them: it calls and
    leaves `readyToRun` and `threadLoop`, and writes and reads `mStatus` without the lock. A wait on
    `mThreadExitedCondition` gives the lock back and takes it again after a broadcast or for no
    reason, so a waiter may come to re-test `mRunning` at any time. `run` creates its child in its
    own section; whether that succeeds, what the two callbacks return and who calls when is left
    open. `mHoldSelf`, `mTid`, `mCanCallJava` and what only describes the new thread (its name, its
    priority and its stack) are left out: they change nothing here. -/

namespace ThreadManager
open Schemes

/-- `status_t`. -/
abbrev Status := ℤ

/-- `NO_ERROR`. -/
def noError : Status := 0

/-- `UNKNOWN_ERROR`. -/
def unknownError : Status := -0x80000000

/-- `INVALID_OPERATION`. -/
def invalidOperation : Status := -38

/-- `thread_id_t`. -/
abbrev ThreadId := ℤ

/-- `thread_id_t(-1)`. -/
def noThread : ThreadId := -1

/-- A `Thread` object. -/
structure Thread where
  mThread : ThreadId
  mStatus : Status
  mExitPending : Bool
  mRunning : Bool
  deriving DecidableEq, Repr

/-- The two functions that wait until the thread exits. -/
inductive WaitCall where
  | requestExitAndWait
  | join
  deriving DecidableEq, Repr

/-- How a section of one of them ends: it returns WOULD_BLOCK, it waits on the condition, or it
    leaves the wait loop and returns a status. -/
inductive WaitResult where
  | wouldBlock
  | waits (self : Thread)
  | returns (status : Status) (self : Thread)
  deriving DecidableEq, Repr

namespace Thread

/-- The constructor. -/
def new : Thread := ⟨noThread, noError, false, false⟩

/-- `run`; `created` is the id of the new thread, `none` if it could not be created. -/
def run (self : Thread) (created : Option ThreadId) : Status × Thread :=
  if self.mRunning then (invalidOperation, self)
  else
    let self := { self with
      mStatus := noError, mExitPending := false, mThread := noThread, mRunning := true }
    match created with
    | some id => (noError, { self with mThread := id })
    | none => (unknownError, { self with
        mStatus := unknownError, mRunning := false, mThread := noThread })

def requestExit (self : Thread) : Thread := { self with mExitPending := true }

def exitPending (self : Thread) : Bool := self.mExitPending

/-- From a test of `mRunning` on: wait, or return. Only `requestExitAndWait` clears the request. -/
def waitForExit (self : Thread) (c : WaitCall) : WaitResult :=
  if self.mRunning then .waits self
  else match c with
    | .requestExitAndWait => .returns self.mStatus { self with mExitPending := false }
    | .join => .returns self.mStatus self

/-- `requestExitAndWait` up to its first wait; `caller` is the id of the calling thread. -/
def requestExitAndWait (self : Thread) (caller : ThreadId) : WaitResult :=
  if self.mThread = caller then .wouldBlock
  else { self with mExitPending := true }.waitForExit .requestExitAndWait

/-- `join` up to its first wait. -/
def join (self : Thread) (caller : ThreadId) : WaitResult :=
  if self.mThread = caller then .wouldBlock else self.waitForExit .join

/-- The section at the end of an iteration of `_threadLoop`, with whether it breaks. -/
def endIteration (self : Thread) (result : Bool) : Bool × Thread :=
  if result = false ∨ self.mExitPending then
    (true, { self with mExitPending := true, mRunning := false, mThread := noThread })
  else (false, self)

end Thread

/-- A thread of the process: the child of a run of the object, or another one. -/
inductive Thr where
  | child (run : ℕ)
  | other (p : ℕ)
  deriving DecidableEq, Repr

/-- Where a child is in `_threadLoop`. `first` is declared in the loop body, so it is true at the
    top of every iteration, and what comes next is `readyToRun`. -/
inductive ChildPc where
  | top
  | inReadyToRun
  | readyToRunReturned
  | testingExit
  | callingThreadLoop
  | inThreadLoop
  | closing (result : Bool)
  | exited
  deriving DecidableEq, Repr

/-- What happened: calls and returns of the callbacks of run `k`, its further iterations and its
    end, failed creations, and the ends of the wait loops, with the run that was active at the call. -/
inductive ThreadEvent where
  | readyToRun (k : ℕ)
  | readyToRunReturned (k : ℕ) (status : Status)
  | threadLoop (k : ℕ)
  | iterated (k : ℕ)
  | ended (k : ℕ) (status : Status)
  | failed (k : ℕ)
  | waited (c : Thr) (k : Option ℕ) (status : Status)
  deriving DecidableEq, Repr

/-- The calls that any thread can make; `exitPending` is there for the callbacks. -/
inductive ThreadCall where
  | run (created : Option ThreadId)
  | requestExit
  | requestExitAndWait
  | join
  | exitPending
  deriving DecidableEq, Repr

/-- What a child does in `_threadLoop`. -/
inductive ChildAct where
  | callReadyToRun
  | readyToRunReturns (status : Status)
  | readStatus
  | exitPending
  | callThreadLoop
  | threadLoopReturns (result : Bool)
  | close
  | exit
  deriving DecidableEq, Repr

/-- The steps: threads come and go, call, re-test after a wait; children go on. -/
inductive ThreadAct where
  | start (p : ℕ) (id : ThreadId)
  | finish (p : ℕ)
  | call (c : Thr) (f : ThreadCall)
  | wakeUp (c : Thr)
  | child (k : ℕ) (a : ChildAct)
  deriving DecidableEq, Repr

/-- Where the child must be for it. -/
def ChildAct.At : ChildAct → ChildPc → Prop
  | .callReadyToRun, pc => pc = .top
  | .readyToRunReturns _, pc => pc = .inReadyToRun
  | .readStatus, pc => pc = .readyToRunReturned
  | .exitPending, pc => pc = .testingExit
  | .callThreadLoop, pc => pc = .callingThreadLoop
  | .threadLoopReturns _, pc => pc = .inThreadLoop
  | .close, pc => ∃ result, pc = .closing result
  | .exit, pc => pc = .exited

/-- The two acts that are no moves inside an iteration. -/
theorem ChildAct.close_or_exit_or (a : ChildAct) :
    a = .close ∨ a = .exit ∨ a ≠ .close ∧ a ≠ .exit := by
  cases a <;> simp

instance : (a : ChildAct) → (pc : ChildPc) → Decidable (a.At pc)
  | .callReadyToRun, pc => inferInstanceAs (Decidable (pc = .top))
  | .readyToRunReturns _, pc => inferInstanceAs (Decidable (pc = .inReadyToRun))
  | .readStatus, pc => inferInstanceAs (Decidable (pc = .readyToRunReturned))
  | .exitPending, pc => inferInstanceAs (Decidable (pc = .testingExit))
  | .callThreadLoop, pc => inferInstanceAs (Decidable (pc = .callingThreadLoop))
  | .threadLoopReturns _, pc => inferInstanceAs (Decidable (pc = .inThreadLoop))
  | .close, .closing result => .isTrue ⟨result, rfl⟩
  | .close, .top | .close, .inReadyToRun | .close, .readyToRunReturned | .close, .testingExit
  | .close, .callingThreadLoop | .close, .inThreadLoop | .close, .exited => .isFalse nofun
  | .exit, pc => inferInstanceAs (Decidable (pc = .exited))

/-- The object, the ids of the threads alive, where the children are, who waits in which call (with
    the run that was active when it was made), how many `run` calls got past their test, and what
    happened, oldest first. The child of the `k`th such call is `child k`. -/
structure ThreadSys where
  thread : Thread
  id : Thr → Option ThreadId
  pc : ℕ → Option ChildPc
  waiting : Thr → Option (WaitCall × Option ℕ)
  runs : ℕ
  log : List ThreadEvent

namespace ThreadSys

/-- The object is constructed and nobody is there. -/
def start : ThreadSys := ⟨.new, fun _ => none, fun _ => none, fun _ => none, 0, []⟩

/-- The child of run `k` is between its creation and its last section. -/
def Active (s : ThreadSys) (k : ℕ) : Prop := ∃ pc, s.pc k = some pc ∧ pc ≠ .exited

/-- The run that is active. -/
def activeRun (s : ThreadSys) : Option ℕ := if s.thread.mRunning then some s.runs else none

/-- The id is none a thread alive has. -/
def FreshId (s : ThreadSys) (id : ThreadId) : Prop := id ≠ noThread ∧ ∀ c, s.id c ≠ some id

/-- The thread can call: it is alive and not in a wait, and a child is in one of its callbacks. -/
def CanCall (s : ThreadSys) (c : Thr) : Prop :=
  (s.id c).isSome ∧ s.waiting c = none ∧
    ∀ k, c = .child k → s.pc k = some .inReadyToRun ∨ s.pc k = some .inThreadLoop

/-- The thread of the step is there, and a new thread has a fresh id. -/
def Enabled (s : ThreadSys) : ThreadAct → Prop
  | .start p id => s.id (.other p) = none ∧ s.waiting (.other p) = none ∧ s.FreshId id
  | .finish p => (s.id (.other p)).isSome ∧ s.waiting (.other p) = none
  | .call c f => s.CanCall c ∧ ∀ id, f = .run (some id) → s.FreshId id
  | .wakeUp c => (s.waiting c).isSome
  | .child k a => s.waiting (.child k) = none ∧ ∃ pc, s.pc k = some pc ∧ a.At pc

/-- The child goes on to `pc`. -/
def goto (s : ThreadSys) (k : ℕ) (pc : ChildPc) : ThreadSys :=
  { s with pc := Function.update s.pc k (some pc) }

def record (s : ThreadSys) (e : ThreadEvent) : ThreadSys := { s with log := s.log ++ [e] }

/-- `run`, with the creation of the child. -/
def run (s : ThreadSys) (created : Option ThreadId) : ThreadSys :=
  let t := { s with thread := (s.thread.run created).2 }
  if s.thread.mRunning then t
  else match created with
    | none => { t with runs := s.runs + 1 }.record (.failed (s.runs + 1))
    | some id => { t with
        runs := s.runs + 1
        id := Function.update s.id (.child (s.runs + 1)) (some id) }.goto (s.runs + 1) .top

/-- What a section of a wait call does. -/
def wait (s : ThreadSys) (c : Thr) (f : WaitCall) (k : Option ℕ) : WaitResult → ThreadSys
  | .wouldBlock => s
  | .waits thread => { s with thread, waiting := Function.update s.waiting c (some (f, k)) }
  | .returns status thread =>
    { s with thread, waiting := Function.update s.waiting c none }.record (.waited c k status)

/-- What a call does up to its return or its first wait. -/
def call (s : ThreadSys) (c : Thr) : ThreadCall → ThreadSys
  | .run created => s.run created
  | .requestExit => { s with thread := s.thread.requestExit }
  | .requestExitAndWait => match s.id c with
    | none => s
    | some id => s.wait c .requestExitAndWait s.activeRun (s.thread.requestExitAndWait id)
  | .join => match s.id c with
    | none => s
    | some id => s.wait c .join s.activeRun (s.thread.join id)
  | .exitPending => s

/-- What a child does. -/
def child (s : ThreadSys) (k : ℕ) : ChildAct → ThreadSys
  | .callReadyToRun => (s.record (.readyToRun k)).goto k .inReadyToRun
  | .readyToRunReturns status =>
    ({ s with thread := { s.thread with mStatus := status } }.record
      (.readyToRunReturned k status)).goto k .readyToRunReturned
  | .readStatus => s.goto k (if s.thread.mStatus = noError then .testingExit else .closing false)
  | .exitPending => s.goto k (if s.thread.exitPending then .closing true else .callingThreadLoop)
  | .callThreadLoop => (s.record (.threadLoop k)).goto k .inThreadLoop
  | .threadLoopReturns result => s.goto k (.closing result)
  | .close => match s.pc k with
    | some (.closing result) =>
      let (stop, thread) := s.thread.endIteration result
      if stop then ({ s with thread }.record (.ended k thread.mStatus)).goto k .exited
      else ({ s with thread }.record (.iterated k)).goto k .top
    | _ => s
  | .exit => { s with
      pc := Function.update s.pc k none
      id := Function.update s.id (.child k) none }

/-- What a step does. -/
def exec (s : ThreadSys) : ThreadAct → ThreadSys
  | .start p id => { s with id := Function.update s.id (.other p) (some id) }
  | .finish p => { s with id := Function.update s.id (.other p) none }
  | .call c f => s.call c f
  | .wakeUp c => match s.waiting c with
    | none => s
    | some (f, k) => s.wait c f k (s.thread.waitForExit f)
  | .child k a => s.child k a

instance (s : ThreadSys) (k : ℕ) (a : ChildAct) : Decidable (s.Enabled (.child k a)) :=
  match h : s.pc k with
  | none => .isFalse (by simp [Enabled, h])
  | some pc => decidable_of_iff (s.waiting (.child k) = none ∧ a.At pc) (by simp [Enabled, h])

/-- A step. -/
def Step (s : ThreadSys) (a : ThreadAct) (t : ThreadSys) : Prop := s.Enabled a ∧ t = s.exec a

/-- The steps `tr` from the start. -/
abbrev Runs (tr : List (Taken ThreadSys ThreadAct)) (s : ThreadSys) : Prop := Run Step start tr s

variable {s t : ThreadSys} {c : Thr} {k p : ℕ} {id : ThreadId} {created : Option ThreadId}
  {a : ChildAct}

/-- A thread that is no child can call whenever it is there and not in a wait. -/
theorem canCall_other (hid : (s.id (.other p)).isSome) (hwaiting : s.waiting (.other p) = none) :
    s.CanCall (.other p) :=
  ⟨hid, hwaiting, by simp⟩

/-! ### What each step does -/

/-- Everything `run` can do: nothing, a creation that fails, or a new child. -/
theorem step_run (h : Step s (.call c (.run created)) t) :
    s.thread.mRunning = true ∧ t = s ∨
    s.thread.mRunning = false ∧ t = { s with
      thread := ⟨noThread, unknownError, false, false⟩
      runs := s.runs + 1 }.record (.failed (s.runs + 1)) ∨
    s.thread.mRunning = false ∧ ∃ id, created = some id ∧ s.FreshId id ∧ t = { s with
      thread := ⟨id, noError, false, true⟩
      runs := s.runs + 1
      id := Function.update s.id (.child (s.runs + 1)) (some id) }.goto (s.runs + 1) .top := by
  obtain ⟨⟨-, hfresh⟩, rfl⟩ := h
  cases hr : s.thread.mRunning with
  | true => exact Or.inl ⟨rfl, by simp [exec, call, run, Thread.run, hr]⟩
  | false =>
    refine Or.inr ?_
    cases created with
    | none => exact Or.inl ⟨rfl, by simp [exec, call, run, Thread.run, hr]⟩
    | some id => exact Or.inr ⟨rfl, id, rfl, hfresh id rfl, by simp [exec, call, run, Thread.run, hr]⟩

/-- A section of a wait call, made while the run `k` was active, that does not return WOULD_BLOCK:
    it waits as long as the object is running and returns the status if it is not. -/
def WaitStep (s : ThreadSys) (c : Thr) (k : Option ℕ) (t : ThreadSys) : Prop :=
  ∃ pending, (s.thread.mRunning = true ∧ (pending = true ∨ pending = s.thread.mExitPending) ∧
      ∃ f, t = { s with
        thread := { s.thread with mExitPending := pending }
        waiting := Function.update s.waiting c (some (f, k)) }) ∨
    s.thread.mRunning = false ∧ t = { s with
      thread := { s.thread with mExitPending := pending }
      waiting := Function.update s.waiting c none }.record (.waited c k s.thread.mStatus)

theorem waitStep_of_waitForExit {f : WaitCall} {o : Option ℕ} (pending : Bool)
    (hp : pending = true ∨ pending = s.thread.mExitPending) :
    s.WaitStep c o
      (s.wait c f o ({ s.thread with mExitPending := pending }.waitForExit f)) := by
  cases hr : s.thread.mRunning with
  | true =>
    refine ⟨pending, Or.inl ⟨hr, hp, f, ?_⟩⟩
    simp [wait, Thread.waitForExit, hr]
  | false =>
    cases f with
    | requestExitAndWait => exact ⟨false, Or.inr ⟨hr, by simp [wait, Thread.waitForExit, hr]⟩⟩
    | join => exact ⟨pending, Or.inr ⟨hr, by simp [wait, Thread.waitForExit, hr]⟩⟩

theorem step_requestExitAndWait (h : Step s (.call c .requestExitAndWait) t) :
    ∃ id, s.id c = some id ∧
      (s.thread.mThread = id ∧ t = s ∨ s.thread.mThread ≠ id ∧ s.WaitStep c s.activeRun t) := by
  obtain ⟨⟨⟨hid, -⟩, -⟩, rfl⟩ := h
  obtain ⟨id, hid⟩ := Option.isSome_iff_exists.mp hid
  refine ⟨id, hid, ?_⟩
  rcases eq_or_ne s.thread.mThread id with heq | hne
  · exact Or.inl ⟨heq, by simp [exec, call, hid, Thread.requestExitAndWait, heq, wait]⟩
  · refine Or.inr ⟨hne, ?_⟩
    simp only [exec, call, hid, Thread.requestExitAndWait, if_neg hne]
    exact waitStep_of_waitForExit true (Or.inl rfl)

theorem step_join (h : Step s (.call c .join) t) :
    ∃ id, s.id c = some id ∧
      (s.thread.mThread = id ∧ t = s ∨ s.thread.mThread ≠ id ∧ s.WaitStep c s.activeRun t) := by
  obtain ⟨⟨⟨hid, -⟩, -⟩, rfl⟩ := h
  obtain ⟨id, hid⟩ := Option.isSome_iff_exists.mp hid
  refine ⟨id, hid, ?_⟩
  rcases eq_or_ne s.thread.mThread id with heq | hne
  · exact Or.inl ⟨heq, by simp [exec, call, hid, Thread.join, heq, wait]⟩
  · refine Or.inr ⟨hne, ?_⟩
    simp only [exec, call, hid, Thread.join, if_neg hne]
    exact waitStep_of_waitForExit s.thread.mExitPending (Or.inr rfl)

/-- A waiter that is woken re-tests, whatever woke it. -/
theorem step_wakeUp (h : Step s (.wakeUp c) t) :
    ∃ f k, s.waiting c = some (f, k) ∧ s.WaitStep c k t := by
  obtain ⟨hw, rfl⟩ := h
  obtain ⟨⟨f, k⟩, hw⟩ := Option.isSome_iff_exists.mp hw
  refine ⟨f, k, hw, ?_⟩
  simp only [exec, hw]
  exact waitStep_of_waitForExit s.thread.mExitPending (Or.inr rfl)

/-- What child `k` does between two sections of its own, and in reading `mStatus` and `mExitPending`:
    from where to where, the `mStatus` it leaves, and what it reports. -/
inductive Moves (s : ThreadSys) (k : ℕ) : ChildAct → ChildPc → ChildPc → Status →
    List ThreadEvent → Prop
  | callReadyToRun : Moves s k .callReadyToRun .top .inReadyToRun s.thread.mStatus [.readyToRun k]
  | readyToRunReturns (status) : Moves s k (.readyToRunReturns status) .inReadyToRun
      .readyToRunReturned status [.readyToRunReturned k status]
  | ready (h : s.thread.mStatus = noError) :
      Moves s k .readStatus .readyToRunReturned .testingExit s.thread.mStatus []
  | notReady (h : s.thread.mStatus ≠ noError) :
      Moves s k .readStatus .readyToRunReturned (.closing false) s.thread.mStatus []
  | pending (h : s.thread.mExitPending = true) :
      Moves s k .exitPending .testingExit (.closing true) s.thread.mStatus []
  | notPending (h : s.thread.mExitPending = false) :
      Moves s k .exitPending .testingExit .callingThreadLoop s.thread.mStatus []
  | callThreadLoop :
      Moves s k .callThreadLoop .callingThreadLoop .inThreadLoop s.thread.mStatus [.threadLoop k]
  | threadLoopReturns (result) : Moves s k (.threadLoopReturns result) .inThreadLoop
      (.closing result) s.thread.mStatus []

/-- Neither end of a move is the end of the child. -/
theorem Moves.ne_exited {pc pc' : ChildPc} {status : Status} {es : List ThreadEvent}
    (h : s.Moves k a pc pc' status es) :
    pc ≠ .exited ∧ pc' ≠ .exited := by
  cases h <;> simp

/-- Until its last section a child only moves, writes `mStatus` and reports what it does. -/
theorem step_moves (h : Step s (.child k a) t) (hclose : a ≠ .close) (hexit : a ≠ .exit) :
    ∃ pc pc' status es, s.Moves k a pc pc' status es ∧ s.pc k = some pc ∧ t = { s with
      thread := { s.thread with mStatus := status }
      pc := Function.update s.pc k (some pc')
      log := s.log ++ es } := by
  obtain ⟨⟨-, pc, hpc, hat⟩, rfl⟩ := h
  cases a with
  | callReadyToRun =>
    obtain rfl := hat
    exact ⟨_, _, _, _, .callReadyToRun, hpc, rfl⟩
  | readyToRunReturns status =>
    obtain rfl := hat
    exact ⟨_, _, _, _, .readyToRunReturns status, hpc, rfl⟩
  | readStatus =>
    obtain rfl := hat
    rcases eq_or_ne s.thread.mStatus noError with heq | hne
    · refine ⟨_, _, _, _, .ready heq, hpc, ?_⟩
      rw [exec, child, if_pos heq, List.append_nil]
      rfl
    · refine ⟨_, _, _, _, .notReady hne, hpc, ?_⟩
      rw [exec, child, if_neg hne, List.append_nil]
      rfl
  | exitPending =>
    obtain rfl := hat
    cases hp : s.thread.mExitPending with
    | true =>
      refine ⟨_, _, _, _, .pending hp, hpc, ?_⟩
      rw [exec, child, Thread.exitPending, if_pos hp, List.append_nil]
      rfl
    | false =>
      refine ⟨_, _, _, _, .notPending hp, hpc, ?_⟩
      rw [exec, child, Thread.exitPending, hp, List.append_nil]
      rfl
  | callThreadLoop =>
    obtain rfl := hat
    exact ⟨_, _, _, _, .callThreadLoop, hpc, rfl⟩
  | threadLoopReturns result =>
    obtain rfl := hat
    exact ⟨_, _, _, _, .threadLoopReturns result, hpc, by simp [exec, child, goto]⟩
  | close => exact absurd rfl hclose
  | exit => exact absurd rfl hexit

/-- The last section of an iteration ends the run or goes round the loop. -/
theorem step_close (h : Step s (.child k .close) t) :
    ∃ result, s.pc k = some (.closing result) ∧
      ((result = false ∨ s.thread.mExitPending = true) ∧
        t = ({ s with thread := { s.thread with
            mExitPending := true, mRunning := false, mThread := noThread } }.record
          (.ended k s.thread.mStatus)).goto k .exited ∨
      result = true ∧ s.thread.mExitPending = false ∧ t = (s.record (.iterated k)).goto k .top) := by
  obtain ⟨⟨-, _, hpc, result, rfl⟩, rfl⟩ := h
  refine ⟨result, hpc, ?_⟩
  rcases em (result = false ∨ s.thread.mExitPending = true) with hstop | hgo
  · exact Or.inl ⟨hstop, by simp [exec, child, hpc, Thread.endIteration, hstop]⟩
  · refine Or.inr ⟨by simpa using (not_or.mp hgo).1, by simpa using (not_or.mp hgo).2, ?_⟩
    simp [exec, child, hpc, Thread.endIteration, hgo]

/-- All that a step by neither a child nor `run` can do: threads come and go, the request to exit
    is set, or cleared while nothing runs, and waits begin and end. -/
def CallerStep (s t : ThreadSys) : Prop :=
  ∃ ids pending waiting es, t = { s with
      id := ids
      thread := { s.thread with mExitPending := pending }
      waiting := waiting
      log := s.log ++ es } ∧
    (s.thread.mRunning = true → pending = true ∨ pending = s.thread.mExitPending) ∧
    ∀ e ∈ es, ∃ c o, e = .waited c o s.thread.mStatus ∧ s.thread.mRunning = false

theorem CallerStep.refl : s.CallerStep s :=
  ⟨s.id, s.thread.mExitPending, s.waiting, [], by simp, fun _ => Or.inr rfl, by simp⟩

theorem WaitStep.callerStep {o : Option ℕ} (h : s.WaitStep c o t) : s.CallerStep t := by
  obtain ⟨pending, ⟨hr, hp, f, rfl⟩ | ⟨hr, rfl⟩⟩ := h
  · exact ⟨s.id, pending, Function.update s.waiting c (some (f, o)), [], by simp, fun _ => hp,
      by simp⟩
  · refine ⟨s.id, pending, _, [.waited c o s.thread.mStatus], rfl, ?_, ?_⟩
    · intro hno
      rw [hr] at hno
      cases hno
    · intro e he
      exact ⟨c, o, List.mem_singleton.mp he, hr⟩

/-- A step is a call of `run`, one by a child, or one of the others. -/
theorem step_cases {a : ThreadAct} (h : Step s a t) :
    (∃ c created, a = .call c (.run created)) ∨ (∃ k b, a = .child k b) ∨ s.CallerStep t := by
  cases a with
  | start p i =>
    obtain ⟨-, rfl⟩ := h
    exact Or.inr (Or.inr ⟨Function.update s.id (.other p) (some i), s.thread.mExitPending,
      s.waiting, [], by simp [exec], fun _ => Or.inr rfl, by simp⟩)
  | finish p =>
    obtain ⟨-, rfl⟩ := h
    exact Or.inr (Or.inr ⟨Function.update s.id (.other p) none, s.thread.mExitPending, s.waiting,
      [], by simp [exec], fun _ => Or.inr rfl, by simp⟩)
  | call c f =>
    cases f with
    | run created => exact Or.inl ⟨c, created, rfl⟩
    | requestExit =>
      obtain ⟨-, rfl⟩ := h
      exact Or.inr (Or.inr ⟨s.id, true, s.waiting, [], by simp [exec, call, Thread.requestExit],
        fun _ => Or.inl rfl, by simp⟩)
    | requestExitAndWait =>
      obtain ⟨-, -, ⟨-, rfl⟩ | ⟨-, hwait⟩⟩ := step_requestExitAndWait h
      · exact Or.inr (Or.inr .refl)
      · exact Or.inr (Or.inr hwait.callerStep)
    | join =>
      obtain ⟨-, -, ⟨-, rfl⟩ | ⟨-, hwait⟩⟩ := step_join h
      · exact Or.inr (Or.inr .refl)
      · exact Or.inr (Or.inr hwait.callerStep)
    | exitPending =>
      obtain ⟨-, rfl⟩ := h
      exact Or.inr (Or.inr .refl)
  | wakeUp c =>
    obtain ⟨f, o, -, hwait⟩ := step_wakeUp h
    exact Or.inr (Or.inr hwait.callerStep)
  | child k b => exact Or.inr (Or.inl ⟨k, b, rfl⟩)

end ThreadSys

end ThreadManager
