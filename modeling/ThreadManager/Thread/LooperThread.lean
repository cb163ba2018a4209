import ThreadManager.Thread.Exit
import ThreadManager.Thread.HandleThread
import ThreadManager.Thread.Waiters

/-! Exit requests to a `HandleThread`, after and before it has its looper.

    After that its child is in `Looper::loopOnce`, which does not return, and a request to exit is
    read by `_threadLoop` alone, between two calls of `threadLoop`. The thread therefore never ends:
    `run` is refused from then on, requests are stored for nobody, and each call of
    `requestExitAndWait` or `join` by another thread is a wait without an end. A request that the
    child reads before it calls `threadLoop` ends it without a looper; then it is `getLooper` that
    waits without an end. -/

namespace ThreadManager
open Schemes

namespace ThreadSys

variable {s t : ThreadSys} {a : ThreadAct} {c : Thr} {f : ThreadCall} {pc : ChildPc}

/-- While the active child takes no step, nothing begins, ends or returns. -/
theorem LifeCycle.log_step (h : s.LifeCycle) (hstep : Step s a t) (hpc : s.pc s.runs = some pc)
    (hne : pc ≠ .exited) (ha : ∀ b, a ≠ .child s.runs b) : t.log = s.log := by
  have hr : s.thread.mRunning = true := (h.active _ ⟨pc, hpc, hne⟩).2.1
  rcases step_cases hstep with ⟨c, created, rfl⟩ | ⟨k, b, rfl⟩ | ⟨_, _, _, es, rfl, -, hes⟩
  · rcases step_run hstep with ⟨-, rfl⟩ | ⟨hno, -⟩ | ⟨hno, -⟩
    · rfl
    · rw [hr] at hno
      cases hno
    · rw [hr] at hno
      cases hno
  · -- a child of an earlier run has no step left but to leave `_threadLoop`
    have hold : ¬s.Active k := by
      intro hk
      obtain rfl := (h.active k hk).1
      exact ha b rfl
    rcases b.close_or_exit_or with rfl | rfl | ⟨hclose, hexit⟩
    · obtain ⟨result, hk, -⟩ := step_close hstep
      exact absurd ⟨_, hk, by simp⟩ hold
    · obtain ⟨-, rfl⟩ := hstep
      rfl
    · obtain ⟨pc, _, _, _, hm, hk, -⟩ := step_moves hstep hclose hexit
      exact absurd ⟨pc, hk, hm.ne_exited.1⟩ hold
  · obtain rfl : es = [] := by
      refine List.eq_nil_iff_forall_not_mem.mpr ?_
      intro e he
      obtain ⟨_, _, -, hno⟩ := hes e he
      rw [hr] at hno
      cases hno
    exact List.append_nil _

theorem WaitStep.waits {o : Option ℕ} (h : s.WaitStep c o t) (hr : s.thread.mRunning = true) :
    (t.waiting c).isSome := by
  obtain ⟨pending, ⟨-, -, f, rfl⟩ | ⟨hno, -⟩⟩ := h
  · simp
  · rw [hr] at hno
    cases hno

/-- Who waits while the object runs goes on waiting. -/
theorem waiting_step (hstep : Step s a t) (hr : s.thread.mRunning = true)
    (hw : (s.waiting c).isSome) : (t.waiting c).isSome := by
  by_cases hwake : a = .wakeUp c
  · subst hwake
    obtain ⟨f, o, -, hwait⟩ := step_wakeUp hstep
    exact hwait.waits hr
  · rw [waiting_other hstep]
    · exact hw
    · rintro f rfl
      rw [hstep.1.1.2.1] at hw
      cases hw
    · exact hwake

/-- A call that waits for the exit, made while the object runs by another thread than its child. -/
theorem LifeCycle.call_waits (h : s.LifeCycle) (hstep : Step s (.call c f) t)
    (hr : s.thread.mRunning = true) (hf : f = .requestExitAndWait ∨ f = .join)
    (hc : c ≠ .child s.runs) : (t.waiting c).isSome := by
  have hother : ∀ i, s.id c = some i → s.thread.mThread ≠ i := by
    rintro i hi rfl
    obtain ⟨pc, hpc, hne⟩ := h.running hr
    exact hc (h.distinct _ _ _ hi (h.active _ ⟨pc, hpc, hne⟩).2.2)
  rcases hf with rfl | rfl
  · obtain ⟨i, hi, ⟨heq, -⟩ | ⟨-, hwait⟩⟩ := step_requestExitAndWait hstep
    · exact absurd heq (hother i hi)
    · exact hwait.waits hr
  · obtain ⟨i, hi, ⟨heq, -⟩ | ⟨-, hwait⟩⟩ := step_join hstep
    · exact absurd heq (hother i hi)
    · exact hwait.waits hr

/-- The run that is active, if there is one, ends without a call of `threadLoop`: it is asked to exit,
    and its child has not got past its own test of that. -/
def Barren (s : ThreadSys) : Prop :=
  s.thread.mRunning = true → s.thread.mExitPending = true ∧
    s.pc s.runs ≠ some .callingThreadLoop ∧ s.pc s.runs ≠ some .inThreadLoop

/-- Where an active child of a run that is asked to exit can go. -/
theorem Moves.barren {k : ℕ} {b : ChildAct} {pc pc' : ChildPc} {status : Status}
    {es : List ThreadEvent} (h : s.Moves k b pc pc' status es) (hp : s.thread.mExitPending = true)
    (hcall : pc ≠ .callingThreadLoop) : pc' ≠ .callingThreadLoop ∧ pc' ≠ .inThreadLoop := by
  cases h with
  | notPending hno =>
    rw [hp] at hno
    cases hno
  | callThreadLoop => exact absurd rfl hcall
  | _ => simp

/-- It stays so, unless a new run begins. -/
theorem LifeCycle.barren_step (h : s.LifeCycle) (hb : s.Barren) (hstep : Step s a t)
    (hruns : a.IsRun → s.thread.mRunning = true) : t.Barren := by
  cases hr : s.thread.mRunning with
  | false =>
    have hidle := h.step_idle hstep hr fun hrun => by
      rw [hruns hrun] at hr
      cases hr
    intro hrunning
    rw [hidle] at hrunning
    cases hrunning
  | true =>
    obtain ⟨hp, hcalling, hin⟩ := hb hr
    rcases step_cases hstep with ⟨c, created, rfl⟩ | ⟨k, b, rfl⟩ | ⟨_, pending, _, _, rfl, hpend, -⟩
    · rcases step_run hstep with ⟨-, rfl⟩ | ⟨hno, -⟩ | ⟨hno, -⟩
      · exact hb
      · rw [hr] at hno
        cases hno
      · rw [hr] at hno
        cases hno
    · rcases b.close_or_exit_or with rfl | rfl | ⟨hclose, hexit⟩
      · obtain ⟨result, -, ⟨-, rfl⟩ | ⟨-, hno, -⟩⟩ := step_close hstep
        · intro hrunning
          cases hrunning
        · rw [hp] at hno
          cases hno
      · obtain ⟨-, rfl⟩ := hstep
        intro _
        simp only [exec, child]
        by_cases hk : s.runs = k
        · subst hk
          simp [hp]
        · simp [hk, hp, hcalling, hin]
      · obtain ⟨pc, pc', status, es, hm, hpc, rfl⟩ := step_moves hstep hclose hexit
        obtain ⟨rfl, -⟩ := h.active k ⟨pc, hpc, hm.ne_exited.1⟩
        have hpc' := hm.barren hp (by rintro rfl; exact hcalling hpc)
        intro _
        simp [hp, hpc']
    · intro _
      refine ⟨?_, hcalling, hin⟩
      rcases hpend hr with rfl | rfl
      · rfl
      · exact hp

end ThreadSys

namespace HandleThread

variable {s s₀ t : HandleThread} {a : HandleAct} {b : ThreadAct} {c : Thr} {f : ThreadCall}
  {tr tr' : List (Taken HandleThread HandleAct)}

theorem thread_base (hstep : Step s (.thread b) t) : ThreadSys.Step s.base b t.base := by
  obtain ⟨⟨hen, -⟩, rfl⟩ := hstep
  exact ⟨hen, rfl⟩

/-- The child that was in `loopOnce` in `s₀` still is, and nothing happened since. -/
structure Loops (s₀ s : HandleThread) : Prop where
  one : s.OneLooper
  looping : s.loop = .looping
  mLooper : s.mLooper = s₀.mLooper
  runs : s.base.runs = s₀.base.runs
  log : s.base.log = s₀.base.log

theorem Loops.running (h : Loops s₀ s) : s.base.thread.mRunning = true :=
  (h.one.lifeCycle.active _ ⟨_, h.one.looping h.looping, by simp⟩).2.1

/-- No other looper is made, so what is not a step of `Thread` is one of a caller of `getLooper`. -/
theorem Loops.base_step (h : Loops s₀ s) (hstep : Step s a t) :
    (∃ b, a = .thread b) ∨ t.base = s.base := by
  obtain ⟨hen, rfl⟩ := hstep
  cases a with
  | thread b => exact Or.inl ⟨b, rfl⟩
  | create looper =>
    obtain ⟨-, hcreating⟩ := hen
    rw [h.looping] at hcreating
    cases hcreating
  | getLooper p =>
    refine Or.inr ?_
    simp only [exec, HandleThread.getLooper]
    split
    · rfl
    · rfl
  | wake p => exact Or.inr rfl
  | spurious p => exact Or.inr rfl

theorem Loops.step (h : Loops s₀ s) (hstep : Step s a t) : Loops s₀ t := by
  have hone := h.one.step hstep
  have hl : s.mLooper ≠ none := h.one.mLooper.mpr h.looping
  have hm := h.one.mLooper_step hstep hl
  have hbase : t.base.runs = s.base.runs ∧ t.base.log = s.base.log := by
    rcases h.base_step hstep with ⟨b, rfl⟩ | hbase
    · have hpc := h.one.looping h.looping
      have hne := h.one.thread_ne h.looping hstep.1
      exact ⟨(h.one.lifeCycle.pc_step (thread_base hstep) hpc (by simp) hne).1,
        h.one.lifeCycle.log_step (thread_base hstep) hpc (by simp) hne⟩
    · rw [hbase]
      exact ⟨rfl, rfl⟩
  exact ⟨hone, hone.mLooper.mp (hm ▸ hl), hm.trans h.mLooper, hbase.1.trans h.runs,
    hbase.2.trans h.log⟩

theorem Loops.run (h : Loops s₀ s) (hrun : Run Step s tr t) : Loops s₀ t :=
  hrun.invariant h fun _ _ hstep hpre => hpre.step hstep

/-- A waiter of a looping thread stays one. -/
theorem Loops.waiting_step (h : Loops s₀ s) (hstep : Step s a t) (hw : (s.base.waiting c).isSome) :
    (t.base.waiting c).isSome := by
  rcases h.base_step hstep with ⟨b, rfl⟩ | hbase
  · exact ThreadSys.waiting_step (thread_base hstep) h.running hw
  · rw [hbase]
    exact hw

theorem Loops.waiting_run (h : Loops s₀ s) (hrun : Run Step s tr t)
    (hw : (s.base.waiting c).isSome) : (t.base.waiting c).isSome := by
  have hend := hrun.invariant (I := fun s => Loops s₀ s ∧ (s.base.waiting c).isSome) ⟨h, hw⟩
    fun _ _ hstep hpre => ⟨hpre.1.step hstep, hpre.1.waiting_step hstep hpre.2⟩
  exact hend.2

/-- From a state with a looper on, in every continuation: the looper is that one and the child is
    running it, no callback is entered or left, no wait ends and no run begins or ends; whoever waits
    for the exit goes on waiting, and so does every other thread that calls for it. -/
theorem looper_never_exits (hrun : Runs tr s) (hl : s.mLooper ≠ none) (hrun' : Run Step s tr' t) :
    t.mLooper = s.mLooper ∧ t.base.thread.mRunning = true ∧
      t.base.pc s.base.runs = some .inThreadLoop ∧ t.base.log = s.base.log ∧
      (∀ c, (s.base.waiting c).isSome → (t.base.waiting c).isSome) ∧
      ∀ x ∈ tr', ∀ c f, x.act = .thread (.call c f) → f = .requestExitAndWait ∨ f = .join →
        c ≠ .child s.base.runs → (t.base.waiting c).isSome := by
  have hone := OneLooper.of_run hrun
  have hs : Loops s s := ⟨hone, hone.mLooper.mp hl, rfl, rfl, rfl⟩
  have ht := hs.run hrun'
  refine ⟨ht.mLooper, ht.running, ht.runs ▸ ht.one.looping ht.looping, ht.log,
    fun c => hs.waiting_run hrun', ?_⟩
  rintro x hx c f hact hf hc
  obtain ⟨hstep, tr₁, hpre, -⟩ := hrun'.before hx
  obtain ⟨tr₂, hpost, -⟩ := hrun'.after hx
  have h₁ := hs.run hpre
  have h₂ := h₁.step hstep
  rw [hact] at hstep
  have hcall := h₁.one.lifeCycle.call_waits (thread_base hstep) h₁.running hf (h₁.runs ▸ hc)
  exact h₂.waiting_run hpost hcall

/-! ### A looper that is never made -/

/-- The step is no call of `run` that finds the object not running. -/
def NoNewRun (x : Taken HandleThread HandleAct) : Prop :=
  ∀ b, x.act = .thread b → b.IsRun → x.pre.base.thread.mRunning = true

theorem OneLooper.not_inThreadLoop (h : s.OneLooper) (hb : s.base.Barren) {k : ℕ} :
    s.base.pc k ≠ some .inThreadLoop := by
  intro hpc
  obtain ⟨rfl, hr, -⟩ := h.lifeCycle.active k ⟨_, hpc, by simp⟩
  exact (hb hr).2.2 hpc

theorem OneLooper.barren_step (h : s.OneLooper) (hb : s.base.Barren) (hstep : Step s a t)
    (hruns : NoNewRun ⟨s, a, t⟩) : t.base.Barren := by
  cases a with
  | thread b => exact h.lifeCycle.barren_step hb (thread_base hstep) (hruns b rfl)
  | create looper =>
    obtain ⟨⟨⟨k, hpc⟩, -⟩, -⟩ := hstep
    exact absurd hpc (h.not_inThreadLoop hb)
  | getLooper p =>
    obtain ⟨-, rfl⟩ := hstep
    simp only [exec, HandleThread.getLooper]
    split
    · exact hb
    · exact hb
  | wake p =>
    obtain ⟨-, rfl⟩ := hstep
    exact hb
  | spurious p =>
    obtain ⟨-, rfl⟩ := hstep
    exact hb

theorem OneLooper.loop_ne (h : s.OneLooper) (hb : s.base.Barren) : s.loop ≠ .looping :=
  fun hloop => h.not_inThreadLoop hb (h.looping hloop)

/-- A caller of `getLooper` waits, and only a spurious wake-up ends that. -/
theorem OneLooper.caller_step (h : s.OneLooper) (hb : s.base.Barren) (hstep : Step s a t)
    (hno : ∀ p, a ≠ .spurious p) : t.returned = s.returned ∧
      (∀ p, s.callers p = .waiting → t.callers p = .waiting) ∧
      ∀ p, a = .getLooper p → t.callers p = .waiting := by
  obtain ⟨hen, rfl⟩ := hstep
  cases a with
  | thread b => exact ⟨rfl, fun _ hp => hp, by simp⟩
  | create looper =>
    obtain ⟨⟨k, hpc⟩, -⟩ := hen
    exact absurd hpc (h.not_inThreadLoop hb)
  | getLooper p =>
    have hnone : s.mLooper = none := by
      by_contra hl
      exact h.loop_ne hb (h.mLooper.mp hl)
    simp only [exec, HandleThread.getLooper, if_pos hnone]
    refine ⟨trivial, ?_, ?_⟩
    · intro q hq
      by_cases hqp : q = p
      · rw [hqp, Function.update_self]
      · rw [Function.update_of_ne hqp, hq]
    · rintro q ⟨⟩
      exact Function.update_self _ _ _
  | wake p => exact absurd (h.signalled p hen) (h.loop_ne hb)
  | spurious p => exact absurd rfl (hno p)

/-- From a state on in which nothing runs, or what runs is asked to exit and has not got past its test
    of that, and as long as no new run begins: no looper is made; and without spurious wake-ups no
    call of `getLooper` returns, and those who wait in one, or come to, wait on. -/
theorem getLooper_hangs (hrun : Runs tr s) (hb : s.base.Barren) (hrun' : Run Step s tr' t)
    (hruns : ∀ x ∈ tr', NoNewRun x) : t.mLooper = none ∧
      ((∀ x ∈ tr', ∀ p, x.act ≠ .spurious p) → t.returned = s.returned ∧
        ∀ p, s.callers p = .waiting ∨ (∃ x ∈ tr', x.act = .getLooper p) → t.callers p = .waiting) := by
  have hs : s.OneLooper ∧ s.base.Barren := ⟨OneLooper.of_run hrun, hb⟩
  have hkeep : ∀ x ∈ tr', Step x.pre x.act x.post → x.pre.OneLooper ∧ x.pre.base.Barren →
      x.post.OneLooper ∧ x.post.base.Barren :=
    fun x hx hstep h => ⟨h.1.step hstep, h.1.barren_step h.2 hstep (hruns x hx)⟩
  have ht := hrun'.invariant (I := fun s => s.OneLooper ∧ s.base.Barren) hs hkeep
  refine ⟨?_, ?_⟩
  · by_contra hl
    exact ht.1.loop_ne ht.2 (ht.1.mLooper.mp hl)
  intro hno
  have hcaller : ∀ x ∈ tr', x.post.returned = x.pre.returned ∧
      (∀ p, x.pre.callers p = .waiting → x.post.callers p = .waiting) ∧
      ∀ p, x.act = .getLooper p → x.post.callers p = .waiting := by
    intro x hx
    have hpre := hrun'.invariant_pre (I := fun s => s.OneLooper ∧ s.base.Barren) hs hkeep hx
    exact hpre.1.caller_step hpre.2 (hrun'.step_of_mem hx) (hno x hx)
  refine ⟨?_, ?_⟩
  · exact hrun'.invariant (I := fun t => t.returned = s.returned) rfl
      fun x hx _ hpre => (hcaller x hx).1.trans hpre
  · rintro p (hp | ⟨x, hx, hact⟩)
    · exact hrun'.invariant (I := fun t => t.callers p = .waiting) hp
        fun x hx _ hpre => (hcaller x hx).2.1 p hpre
    · obtain ⟨tr₂, hpost, hsub⟩ := hrun'.after hx
      exact hpost.invariant (I := fun t => t.callers p = .waiting) ((hcaller x hx).2.2 p hact)
        fun y hy _ hpre => (hcaller y (hsub y hy)).2.1 p hpre

/-! ### Runs of both kinds -/

theorem snoc_thread (hrun : Run Step s₀ tr s) (hen : s.base.Enabled b) (hcallbacks : s.Callbacks b) :
    Run Step s₀ (tr ++ [⟨s, .thread b, s.exec (.thread b)⟩]) (s.exec (.thread b)) :=
  hrun.snoc ⟨⟨hen, hcallbacks⟩, rfl⟩

/-- A thread runs the object, and the child makes the looper. -/
theorem runs_looping : ∃ tr s, Runs tr s ∧ s.mLooper = some 9 ∧ s.base.CanCall (.other 0) := by
  have h₀ : Runs [] start := Run.nil
  have h₁ := snoc_thread h₀ ThreadSys.enabled_start trivial
  have h₂ := snoc_thread h₁ ThreadSys.enabled_run trivial
  have h₃ := snoc_thread h₂ (b := .child 1 .callReadyToRun) (by decide) trivial
  have h₄ := snoc_thread h₃ (b := .child 1 (.readyToRunReturns noError)) (by decide) rfl
  have h₅ := snoc_thread h₄ (b := .child 1 .readStatus) (by decide) trivial
  have h₆ := snoc_thread h₅ (b := .child 1 .exitPending) (by decide) trivial
  have h₇ := snoc_thread h₆ (b := .child 1 .callThreadLoop) (by decide) trivial
  have h₈ := h₇.snoc (a := HandleAct.create (some 9)) ⟨⟨⟨1, rfl⟩, rfl⟩, rfl⟩
  exact ⟨_, _, h₈, rfl, ThreadSys.canCall_other rfl rfl⟩

/-- That thread then asks for the exit, and waits. -/
theorem looper_never_exits_asked : ∃ tr tr' s t, Runs tr s ∧ s.mLooper = some 9 ∧
    Run Step s tr' t ∧ tr'.map Taken.act = [.thread (.call (.other 0) .requestExitAndWait)] ∧
    t.base.thread.mRunning = true ∧ (t.base.waiting (.other 0)).isSome := by
  obtain ⟨tr, s, hrun, hlooper, hcan⟩ := runs_looping
  have hask := snoc_thread .nil (b := .call (.other 0) .requestExitAndWait) (s := s)
    ⟨hcan, by simp⟩ trivial
  obtain ⟨-, hr, -, -, -, hwaits⟩ := looper_never_exits hrun (by simp [hlooper]) hask
  exact ⟨tr, _, s, _, hrun, hlooper, hask, rfl, hr,
    hwaits _ (List.mem_singleton_self _) _ _ rfl (Or.inl rfl) (by simp)⟩

/-- A thread asks for the exit at once, and another one waits for the looper. -/
theorem runs_barren : ∃ tr s, Runs tr s ∧ s.base.Barren ∧ s.callers 0 = .waiting ∧
    s.returned = [] ∧ s.base.Enabled (.child 1 .callReadyToRun) := by
  have h₀ : Runs [] start := Run.nil
  have h₁ := snoc_thread h₀ ThreadSys.enabled_start trivial
  have h₂ := snoc_thread h₁ ThreadSys.enabled_run trivial
  have h₃ := snoc_thread h₂ (b := .call (.other 0) .requestExit)
    ⟨ThreadSys.canCall_other rfl rfl, by simp⟩ trivial
  have h₄ := h₃.snoc (a := HandleAct.getLooper 0) ⟨rfl, rfl⟩
  exact ⟨_, _, h₄, fun _ => by decide, rfl, rfl, by decide⟩

/-- The child starts; the waiter is no nearer to its looper. -/
theorem getLooper_hangs_asked : ∃ tr tr' s t, Runs tr s ∧ Run Step s tr' t ∧
    tr'.map Taken.act = [.thread (.child 1 .callReadyToRun)] ∧ t.mLooper = none ∧
    t.returned = [] ∧ t.callers 0 = .waiting := by
  obtain ⟨tr, s, hrun, hb, hwait, hret, hen⟩ := runs_barren
  have hchild := snoc_thread .nil (b := .child 1 .callReadyToRun) (s := s) hen trivial
  obtain ⟨hnone, hcallers⟩ := getLooper_hangs hrun hb hchild <| by
    intro x hx b hact hrun
    rw [List.mem_singleton.mp hx] at hact
    cases hact
    exact hrun.elim
  obtain ⟨hreturned, hwaits⟩ := hcallers (by simp)
  exact ⟨tr, _, s, _, hrun, hchild, rfl, hnone, hreturned.trans hret, hwaits 0 (Or.inl hwait)⟩

end HandleThread

end ThreadManager
