import ThreadManager.Thread.LifeCycle
import ThreadManager.Schemes.Heap

/-! `HandleThread` of Thread.cpp: a `Thread` whose `threadLoop` makes a `Looper` and runs it.

    The child makes its looper in a section under `lock` and broadcasts; `getLooper` waits for that
    once, without testing `mLooper` again. `Looper::loopOnce` does not return, because
    `MessageQueue::next` never returns NULL, so `threadLoop` returns only when the looper could not be
    made, and a second looper is never made. What is handed out is then one looper, or NULL to a
    caller that came back from its wait before the broadcast. -/

namespace ThreadManager
open Schemes

/-- Where the child is in `threadLoop`: before its section, past it without a looper, or in
    `loopOnce`. -/
inductive LoopPc where
  | creating
  | failed
  | looping
  deriving DecidableEq, Repr

/-- Where a caller of `getLooper` is: outside, in its wait, or in its wait with the broadcast made. -/
inductive LooperCaller where
  | out
  | waiting
  | signalled
  deriving DecidableEq, Repr

/-- A `HandleThread`: the `Thread` that it is, its looper, where its child and the callers of
    `getLooper` are, and what they got, oldest first. -/
structure HandleThread where
  base : ThreadSys
  mLooper : Ptr
  loop : LoopPc
  callers : ℕ → LooperCaller
  returned : List Ptr

/-- The steps. Coming back from the wait without the broadcast is a spurious wake-up. -/
inductive HandleAct where
  | thread (a : ThreadAct)
  | create (looper : Ptr)
  | getLooper (p : ℕ)
  | wake (p : ℕ)
  | spurious (p : ℕ)

namespace HandleThread

/-- The constructor. -/
def start : HandleThread := ⟨.start, none, .creating, fun _ => .out, []⟩

/-- `readyToRun` is the one of `Thread`; `threadLoop` returns false, when it has no looper. -/
def Callbacks (s : HandleThread) : ThreadAct → Prop
  | .child _ (.readyToRunReturns status) => status = noError
  | .child _ (.threadLoopReturns result) => result = false ∧ s.loop = .failed
  | _ => True

def Enabled (s : HandleThread) : HandleAct → Prop
  | .thread a => s.base.Enabled a ∧ s.Callbacks a
  | .create _ => (∃ k, s.base.pc k = some .inThreadLoop) ∧ s.loop = .creating
  | .getLooper p => s.callers p = .out
  | .wake p => s.callers p = .signalled
  | .spurious p => s.callers p = .waiting

/-- `mThreadCondition.broadcast()`. -/
def broadcast (s : HandleThread) : HandleThread :=
  { s with callers := fun p => if s.callers p = .waiting then .signalled else s.callers p }

/-- The section of `threadLoop`; `looper` is what `new Looper` gives. -/
def threadLoop (s : HandleThread) (looper : Ptr) : HandleThread :=
  let s := { s with mLooper := looper }
  if s.mLooper ≠ none then { s with loop := .looping }.broadcast else { s with loop := .failed }

/-- `return mLooper`. -/
def ret (s : HandleThread) (p : ℕ) : HandleThread :=
  { s with callers := Function.update s.callers p .out, returned := s.returned ++ [s.mLooper] }

/-- `getLooper` up to its return or its wait. -/
def getLooper (s : HandleThread) (p : ℕ) : HandleThread :=
  if s.mLooper = none then { s with callers := Function.update s.callers p .waiting } else s.ret p

/-- What a step does. -/
def exec (s : HandleThread) : HandleAct → HandleThread
  | .thread a => { s with
      base := s.base.exec a
      loop := match a with
        | .child _ .callThreadLoop => .creating
        | _ => s.loop }
  | .create looper => s.threadLoop looper
  | .getLooper p => s.getLooper p
  | .wake p => s.ret p
  | .spurious p => s.ret p

def Step (s : HandleThread) (a : HandleAct) (t : HandleThread) : Prop := s.Enabled a ∧ t = s.exec a

abbrev Runs (tr : List (Taken HandleThread HandleAct)) (s : HandleThread) : Prop := Run Step start tr s

variable {s t : HandleThread} {a : HandleAct} {b : ThreadAct} {p q k : ℕ} {looper r : Ptr}
  {tr : List (Taken HandleThread HandleAct)}

/-! ### The looper -/

/-- The child that made the looper is in `loopOnce` for good; there is no looper before, and the
    callers that wait are those the broadcast has yet to reach. -/
structure OneLooper (s : HandleThread) : Prop where
  lifeCycle : s.base.LifeCycle
  looping : s.loop = .looping → s.base.pc s.base.runs = some .inThreadLoop
  mLooper : s.mLooper ≠ none ↔ s.loop = .looping
  waiting : ∀ p, s.callers p = .waiting → s.loop ≠ .looping
  signalled : ∀ p, s.callers p = .signalled → s.loop = .looping

theorem oneLooper_start : start.OneLooper :=
  ⟨ThreadSys.lifeCycle_start, nofun, ⟨fun h => absurd rfl h, nofun⟩, nofun, nofun⟩

/-- The child in `loopOnce` takes no step of `Thread`. -/
theorem OneLooper.thread_ne (h : s.OneLooper) (hloop : s.loop = .looping)
    (hen : s.Enabled (.thread b)) : ∀ b', b ≠ .child s.base.runs b' := by
  rintro b' rfl
  obtain ⟨⟨-, pc, hpc, hat⟩, hcb⟩ := hen
  obtain rfl : pc = .inThreadLoop := by
    rw [h.looping hloop] at hpc
    exact (Option.some.inj hpc).symm
  cases b' with
  | threadLoopReturns result =>
    have hfailed := hcb.2
    rw [hloop] at hfailed
    cases hfailed
  | close => obtain ⟨_, ⟨⟩⟩ := hat
  | _ => cases hat

/-- A step of `Thread` makes no looper, and a call of `threadLoop` is made only where there is none. -/
theorem OneLooper.loop_thread (h : s.OneLooper) (hen : s.Enabled (.thread b)) :
    (s.exec (.thread b)).loop = .looping ↔ s.loop = .looping := by
  rcases em (∃ k, b = .child k .callThreadLoop) with ⟨k, rfl⟩ | hno
  · refine iff_of_false nofun ?_
    intro hloop
    obtain ⟨⟨-, pc, hpc, rfl⟩, -⟩ := id hen
    obtain rfl := (h.lifeCycle.active k ⟨_, hpc, nofun⟩).1
    exact h.thread_ne hloop hen _ rfl
  · have hsame : (s.exec (.thread b)).loop = s.loop := by
      simp only [exec]
      split
      · exact absurd ⟨_, rfl⟩ hno
      · rfl
    rw [hsame]

theorem OneLooper.thread (h : s.OneLooper) (hstep : Step s (.thread b) t) : t.OneLooper := by
  obtain ⟨hen, rfl⟩ := hstep
  have hbase : ThreadSys.Step s.base b (s.base.exec b) := ⟨hen.1, rfl⟩
  have hloop := h.loop_thread hen
  refine ⟨h.lifeCycle.step hbase, ?_, h.mLooper.trans hloop.symm, ?_, ?_⟩
  · intro hl
    have hl' := hloop.mp hl
    obtain ⟨hruns, hpc⟩ := h.lifeCycle.pc_step hbase (h.looping hl') nofun (h.thread_ne hl' hen)
    simp only [exec]
    rw [hruns]
    exact hpc
  · intro p hp
    exact hloop.not.mpr (h.waiting p hp)
  · intro p hp
    exact hloop.mpr (h.signalled p hp)

/-- The one section that makes a looper. -/
theorem OneLooper.create (h : s.OneLooper) (hstep : Step s (.create looper) t) : t.OneLooper := by
  obtain ⟨⟨⟨k, hpc⟩, hcreating⟩, rfl⟩ := hstep
  have hk : k = s.base.runs := (h.lifeCycle.active k ⟨_, hpc, nofun⟩).1
  have hno : s.loop ≠ .looping := by rw [hcreating]; nofun
  cases looper with
  | none =>
    refine ⟨h.lifeCycle, nofun, ⟨fun hl => absurd rfl hl, nofun⟩, fun p _ => nofun, ?_⟩
    intro p hp
    exact absurd (h.signalled p hp) hno
  | some a =>
    refine ⟨h.lifeCycle, fun _ => hk ▸ hpc, ⟨fun _ => rfl, fun _ => nofun⟩, ?_,
      fun p _ => rfl⟩
    intro p hp
    -- the broadcast leaves nobody waiting
    simp only [exec, threadLoop, broadcast] at hp
    by_cases hw : s.callers p = .waiting <;> simp [hw] at hp

theorem OneLooper.ret (h : s.OneLooper) : (s.ret p).OneLooper where
  lifeCycle := h.lifeCycle
  looping := h.looping
  mLooper := h.mLooper
  waiting q hq := by
    rcases eq_or_ne q p with rfl | hne
    · simp [HandleThread.ret] at hq
    · exact h.waiting q (by simpa [HandleThread.ret, hne] using hq)
  signalled q hq := by
    rcases eq_or_ne q p with rfl | hne
    · simp [HandleThread.ret] at hq
    · exact h.signalled q (by simpa [HandleThread.ret, hne] using hq)

theorem OneLooper.getLooper (h : s.OneLooper) : (s.getLooper p).OneLooper := by
  unfold HandleThread.getLooper
  split
  · rename_i hnone
    refine ⟨h.lifeCycle, h.looping, h.mLooper, ?_, ?_⟩
    · intro q hq hloop
      exact h.mLooper.mpr hloop hnone
    · intro q hq
      rcases eq_or_ne q p with rfl | hne
      · simp at hq
      · exact h.signalled q (by simpa [hne] using hq)
  · exact h.ret

theorem OneLooper.step (h : s.OneLooper) (hstep : Step s a t) : t.OneLooper := by
  cases a with
  | thread b => exact h.thread hstep
  | create looper => exact h.create hstep
  | getLooper p =>
    obtain ⟨-, rfl⟩ := hstep
    exact h.getLooper
  | wake p =>
    obtain ⟨-, rfl⟩ := hstep
    exact h.ret
  | spurious p =>
    obtain ⟨-, rfl⟩ := hstep
    exact h.ret

theorem OneLooper.of_run (hrun : Runs tr s) : s.OneLooper :=
  hrun.invariant oneLooper_start fun _ _ hstep h => h.step hstep

/-! ### What is handed out -/

/-- A looper that is there stays. -/
theorem OneLooper.mLooper_step (h : s.OneLooper) (hstep : Step s a t) (hl : s.mLooper ≠ none) :
    t.mLooper = s.mLooper := by
  obtain ⟨hen, rfl⟩ := hstep
  cases a with
  | create looper =>
    obtain ⟨-, hcreating⟩ := hen
    rw [h.mLooper.mp hl] at hcreating
    cases hcreating
  | getLooper p => simp [exec, HandleThread.getLooper, hl, HandleThread.ret]
  | _ => rfl

/-- What a step adds to what was returned: `mLooper`, and NULL if the wake-up was spurious. -/
theorem OneLooper.returned_step (h : s.OneLooper) (hstep : Step s a t) :
    t.returned = s.returned ∨ (t.mLooper = s.mLooper ∧ t.returned = s.returned ++ [s.mLooper] ∧
      (s.mLooper = none ↔ ∃ p, a = .spurious p)) := by
  obtain ⟨hen, rfl⟩ := hstep
  cases a with
  | thread b => exact Or.inl rfl
  | create looper =>
    refine Or.inl ?_
    simp only [exec, threadLoop]
    split <;> rfl
  | getLooper p =>
    rcases eq_or_ne s.mLooper none with hnone | hl
    · exact Or.inl (by simp [exec, HandleThread.getLooper, hnone])
    · refine Or.inr ?_
      simp [exec, HandleThread.getLooper, hl, HandleThread.ret]
  | wake p =>
    refine Or.inr ⟨rfl, rfl, iff_of_false (h.mLooper.mpr (h.signalled p hen)) ?_⟩
    rintro ⟨_, ⟨⟩⟩
  | spurious p =>
    refine Or.inr ⟨rfl, rfl, iff_of_true ?_ ⟨p, rfl⟩⟩
    by_contra hl
    exact h.waiting p hen (h.mLooper.mp hl)

theorem OneLooper.mem_returned (h : s.OneLooper) (hstep : Step s a t) (hr : r ∈ s.returned) :
    r ∈ t.returned := by
  rcases h.returned_step hstep with hret | ⟨-, hret, -⟩
  · rw [hret]
    exact hr
  · rw [hret]
    exact List.mem_append_left _ hr

/-- Everything that was handed out is the looper. -/
def HandedOut (s : HandleThread) : Prop := ∀ r ∈ s.returned, r = s.mLooper ∧ r ≠ none

theorem HandedOut.step (h : s.HandedOut) (hone : s.OneLooper) (hstep : Step s a t)
    (ha : ∀ p, a ≠ .spurious p) : t.HandedOut := by
  have hold : ∀ r ∈ s.returned, r = t.mLooper ∧ r ≠ none := by
    intro r hr
    obtain ⟨rfl, hne⟩ := h r hr
    exact ⟨(hone.mLooper_step hstep hne).symm, hne⟩
  rcases hone.returned_step hstep with hret | ⟨hm, hret, hnull⟩
  · intro r hr
    rw [hret] at hr
    exact hold r hr
  · intro r hr
    rw [hret] at hr
    rcases List.mem_append.mp hr with hr | hr
    · exact hold r hr
    · obtain rfl := List.mem_singleton.mp hr
      refine ⟨hm.symm, ?_⟩
      intro hnone
      obtain ⟨p, rfl⟩ := hnull.mp hnone
      exact ha p rfl

/-- Every call that returns yields the looper, never NULL and always the same, exactly in the runs
    in which no caller comes back from its wait before the broadcast. -/
theorem get_looper_when (hrun : Runs tr s) :
    ((∀ r ∈ s.returned, r ≠ none) ∧ ∀ r ∈ s.returned, ∀ r' ∈ s.returned, r = r') ↔
      ∀ x ∈ tr, ∀ p, x.act ≠ .spurious p := by
  constructor
  · rintro ⟨hne, -⟩ x hx p hact
    -- the caller that is woken finds NULL, and what was returned stays returned
    obtain ⟨hstep, tr₁, hpre, -⟩ := hrun.before hx
    obtain ⟨tr₂, hpost, -⟩ := hrun.after hx
    have hone := OneLooper.of_run hpre
    have hnull : none ∈ x.post.returned := by
      rcases hone.returned_step hstep with hret | ⟨-, hret, hnull⟩
      · rw [hact] at hstep
        obtain ⟨-, hpost⟩ := hstep
        simp [hpost, exec, ret] at hret
      · rw [hret, hnull.mpr ⟨p, hact⟩]
        exact List.mem_append_right _ (List.mem_singleton_self _)
    have hend := hpost.invariant (I := fun s => s.OneLooper ∧ none ∈ s.returned)
      ⟨hone.step hstep, hnull⟩ fun y _ hstep h => ⟨h.1.step hstep, h.1.mem_returned hstep h.2⟩
    exact hne none hend.2 rfl
  · intro hno
    have hend := hrun.invariant (I := fun s => s.OneLooper ∧ s.HandedOut)
      ⟨oneLooper_start, nofun⟩ fun x hx hstep h =>
        ⟨h.1.step hstep, h.2.step h.1 hstep (hno x hx)⟩
    refine ⟨fun r hr => (hend.2 r hr).2, ?_⟩
    intro r hr r' hr'
    exact (hend.2 r hr).1.trans (hend.2 r' hr').1.symm

/-- A caller that waits from before the creation, the broadcast, and one that comes after it. -/
theorem get_looper_when_created : ∃ tr s, Runs tr s ∧ s.returned = [some 9, some 9] ∧
    ∀ r ∈ s.returned, r ≠ none := by
  have h₀ : Runs [] start := Run.nil
  have h₁ := h₀.snoc (a := HandleAct.thread (.start 0 1))
    ⟨⟨⟨rfl, rfl, by decide, fun _ => nofun⟩, trivial⟩, rfl⟩
  have h₂ := h₁.snoc (a := HandleAct.getLooper 0) ⟨rfl, rfl⟩
  have h₃ := h₂.snoc (a := HandleAct.thread (.call (.other 0) (.run (some 2))))
    ⟨⟨⟨⟨rfl, rfl, nofun⟩, by
      rintro i ⟨⟩
      exact ⟨by decide, ThreadSys.update_ne_some (fun _ => nofun) (by decide)⟩⟩, trivial⟩, rfl⟩
  have h₄ := h₃.snoc (a := HandleAct.thread (.child 1 .callReadyToRun))
    ⟨⟨by decide, trivial⟩, rfl⟩
  have h₅ := h₄.snoc (a := HandleAct.thread (.child 1 (.readyToRunReturns noError)))
    ⟨⟨by decide, rfl⟩, rfl⟩
  have h₆ := h₅.snoc (a := HandleAct.thread (.child 1 .readStatus))
    ⟨⟨by decide, trivial⟩, rfl⟩
  have h₇ := h₆.snoc (a := HandleAct.thread (.child 1 .exitPending))
    ⟨⟨by decide, trivial⟩, rfl⟩
  have h₈ := h₇.snoc (a := HandleAct.thread (.child 1 .callThreadLoop))
    ⟨⟨by decide, trivial⟩, rfl⟩
  have h₉ := h₈.snoc (a := HandleAct.create (some 9)) ⟨⟨⟨1, rfl⟩, rfl⟩, rfl⟩
  have h₁₀ := h₉.snoc (a := HandleAct.wake 0) ⟨rfl, rfl⟩
  have h₁₁ := h₁₀.snoc (a := HandleAct.getLooper 0) ⟨rfl, rfl⟩
  refine ⟨_, _, h₁₁, rfl, ((get_looper_when h₁₁).mpr ?_).1⟩
  simp

/-- A caller is woken for no reason before the child has made the looper, and gets NULL. -/
theorem getLooper_spurious : ∃ tr s, Runs tr s ∧ tr.map Taken.act = [.getLooper 0, .spurious 0] ∧
    none ∈ s.returned := by
  have h₀ : Runs [] start := Run.nil
  have h₁ := h₀.snoc (a := HandleAct.getLooper 0) ⟨rfl, rfl⟩
  have h₂ := h₁.snoc (a := HandleAct.spurious 0) ⟨rfl, rfl⟩
  exact ⟨_, _, h₂, rfl, List.mem_singleton_self _⟩

end HandleThread

end ThreadManager
