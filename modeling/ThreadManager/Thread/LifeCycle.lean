import ThreadManager.Thread.Thread

/-! The life cycle of a `Thread` object.

    `mRunning` says whether a child is active and `mThread` is its id, in every state of every run.
    So a second child is never made while one is active, and a wait refuses exactly the active child,
    however the ids of threads that have ended are used again. -/

namespace ThreadManager
open Schemes

namespace ThreadSys

/-- The fields of the object tell the truth about its children. -/
structure LifeCycle (s : ThreadSys) : Prop where
  distinct : ∀ c d i, s.id c = some i → s.id d = some i → c = d
  valid : ∀ c i, s.id c = some i → i ≠ noThread
  alive : ∀ k, (s.id (.child k)).isSome = (s.pc k).isSome
  old : ∀ k, (s.pc k).isSome → k ≤ s.runs
  active : ∀ k, s.Active k →
    k = s.runs ∧ s.thread.mRunning = true ∧ s.id (.child k) = some s.thread.mThread
  running : s.thread.mRunning = true → s.Active s.runs
  idle : s.thread.mRunning = false → s.thread.mThread = noThread
  free : ∀ k, s.waiting (.child k) = none

variable {s t u : ThreadSys} {a : ThreadAct} {b : ChildAct} {c d : Thr} {k j p : ℕ} {i : ThreadId}
  {pc pc' : ChildPc} {created : Option ThreadId} {o : Option ℕ} {status : Status}
  {tr : List (Taken ThreadSys ThreadAct)}

theorem lifeCycle_start : start.LifeCycle where
  distinct := by rintro c d i ⟨⟩
  valid := by rintro c i ⟨⟩
  alive _ := rfl
  old := by rintro k ⟨⟩
  active := by rintro k ⟨_, ⟨⟩, _⟩
  running := by rintro ⟨⟩
  idle _ := rfl
  free _ := rfl

/-- A step that moves no child in or out, makes no thread and leaves the two fields alone. -/
theorem LifeCycle.congr (h : s.LifeCycle) (hid : t.id = s.id) (hruns : t.runs = s.runs)
    (hm : t.thread.mThread = s.thread.mThread) (hr : t.thread.mRunning = s.thread.mRunning)
    (hsome : ∀ k, (t.pc k).isSome = (s.pc k).isSome) (hactive : ∀ k, t.Active k ↔ s.Active k)
    (hfree : ∀ k, t.waiting (.child k) = none) : t.LifeCycle where
  distinct := by rw [hid]; exact h.distinct
  valid := by rw [hid]; exact h.valid
  alive k := by rw [hid, hsome]; exact h.alive k
  old k hk := by rw [hruns]; exact h.old k (hsome k ▸ hk)
  active k hk := by rw [hruns, hr, hid, hm]; exact h.active k ((hactive k).mp hk)
  running hrun := by rw [hruns, hactive]; exact h.running (hr ▸ hrun)
  idle hrun := by rw [hm]; exact h.idle (hr ▸ hrun)
  free := hfree

/-! ### Moves of a child -/

theorem active_goto (hpc : s.pc k = some pc) (hne : pc ≠ .exited) (hne' : pc' ≠ .exited) :
    (s.goto k pc').Active j ↔ s.Active j := by
  rcases eq_or_ne j k with rfl | hj
  · exact iff_of_true ⟨pc', by simp [goto], hne'⟩ ⟨pc, hpc, hne⟩
  · simp [Active, goto, hj]

theorem isSome_goto (hpc : s.pc k = some pc) : ((s.goto k pc').pc j).isSome = (s.pc j).isSome := by
  rcases eq_or_ne j k with rfl | hj
  · simp [goto, hpc]
  · simp [goto, hj]

theorem LifeCycle.moves (h : s.LifeCycle) (hstep : Step s (.child k b) t) (hb : b ≠ .close)
    (hb' : b ≠ .exit) : t.LifeCycle := by
  obtain ⟨pc, pc', status, es, hm, hpc, rfl⟩ := step_moves hstep hb hb'
  exact h.congr rfl rfl rfl rfl (fun j => isSome_goto hpc)
    (fun j => active_goto hpc hm.ne_exited.1 hm.ne_exited.2) h.free

/-- A child in its last section is active, and the latest. -/
theorem LifeCycle.closing_eq (h : s.LifeCycle) (hpc : s.pc k = some (.closing result)) :
    k = s.runs :=
  (h.active k ⟨_, hpc, by simp⟩).1

/-! ### Steps that change who is there -/

/-- The id a step gives to a new thread is none that was there. -/
theorem LifeCycle.distinct_update (h : s.LifeCycle) (hi : s.FreshId i) :
    ∀ d e x, Function.update s.id c (some i) d = some x →
      Function.update s.id c (some i) e = some x → d = e := by
  intro d e x hd he
  rcases eq_or_ne d c with rfl | hdc <;> rcases eq_or_ne e d with rfl | hed
  · rfl
  · rw [Function.update_self, Option.some.injEq] at hd
    rw [Function.update_of_ne hed, ← hd] at he
    exact absurd he (hi.2 e)
  · rfl
  · rw [Function.update_of_ne hdc] at hd
    rcases eq_or_ne e c with rfl | hec
    · rw [Function.update_self, Option.some.injEq] at he
      rw [← he] at hd
      exact absurd hd (hi.2 d)
    · rw [Function.update_of_ne hec] at he
      exact h.distinct d e x hd he

theorem LifeCycle.valid_update (h : s.LifeCycle) (hi : s.FreshId i) :
    ∀ d x, Function.update s.id c (some i) d = some x → x ≠ noThread := by
  intro d x hd
  rcases eq_or_ne d c with rfl | hdc
  · rw [Function.update_self, Option.some.injEq] at hd
    exact hd ▸ hi.1
  · rw [Function.update_of_ne hdc] at hd
    exact h.valid d x hd

/-- A thread that ends takes its id with it. -/
theorem update_none_eq_some {x : ThreadId} (h : Function.update s.id c none d = some x) :
    s.id d = some x := by
  rcases eq_or_ne d c with rfl | hdc
  · simp at h
  · rwa [Function.update_of_ne hdc] at h

theorem LifeCycle.start (h : s.LifeCycle) (hstep : Step s (.start p i) t) : t.LifeCycle := by
  obtain ⟨⟨-, -, hi⟩, rfl⟩ := hstep
  exact { h with
    distinct := h.distinct_update hi
    valid := h.valid_update hi
    alive := fun k => by simpa [exec] using h.alive k
    active := fun k hk => by simpa [exec] using h.active k hk }

theorem LifeCycle.finish (h : s.LifeCycle) (hstep : Step s (.finish p) t) : t.LifeCycle := by
  obtain ⟨-, rfl⟩ := hstep
  exact { h with
    distinct := fun d e x hd he => h.distinct d e x (update_none_eq_some hd) (update_none_eq_some he)
    valid := fun d x hd => h.valid d x (update_none_eq_some hd)
    alive := fun k => by simpa [exec] using h.alive k
    active := fun k hk => by simpa [exec] using h.active k hk }

theorem LifeCycle.not_active (h : s.LifeCycle) (hr : s.thread.mRunning = false) : ¬s.Active k := by
  intro hk
  rw [(h.active k hk).2.1] at hr
  cases hr

theorem LifeCycle.exited_of_idle (h : s.LifeCycle) (hr : s.thread.mRunning = false)
    (hpc : s.pc k = some pc) : pc = .exited := by
  by_contra hno
  exact h.not_active hr ⟨pc, hpc, hno⟩

theorem LifeCycle.pc_later (h : s.LifeCycle) (hk : s.runs < k) : s.pc k = none := by
  by_contra hno
  have := h.old k (Option.isSome_iff_ne_none.mpr hno)
  omega

/-- `run` only makes a child while none is active. -/
theorem LifeCycle.run (h : s.LifeCycle) (hstep : Step s (.call c (.run created)) t) :
    t.LifeCycle := by
  have hnew : s.pc (s.runs + 1) = none := h.pc_later (Nat.lt_succ_self _)
  rcases step_run hstep with ⟨-, rfl⟩ | ⟨hr, rfl⟩ | ⟨hr, i, -, hi, rfl⟩
  · exact h
  · exact { h with
      old := fun k hk => (h.old k hk).trans (Nat.le_succ _)
      active := fun k hk => absurd hk (h.not_active hr)
      running := by rintro ⟨⟩
      idle := fun _ => rfl }
  · refine { h with
      distinct := h.distinct_update hi
      valid := h.valid_update hi
      alive := ?_
      old := ?_
      active := ?_
      running := fun _ => ⟨.top, by simp [goto], nofun⟩
      idle := by rintro ⟨⟩ }
    · intro k
      rcases eq_or_ne k (s.runs + 1) with rfl | hne
      · simp [goto]
      · simpa [goto, hne] using h.alive k
    · intro k hk
      rcases eq_or_ne k (s.runs + 1) with rfl | hne
      · exact le_rfl
      · simp only [goto, Function.update_of_ne hne] at hk
        exact (h.old k hk).trans (Nat.le_succ _)
    · intro k hk
      rcases eq_or_ne k (s.runs + 1) with rfl | hne
      · exact ⟨rfl, rfl, by simp [goto]⟩
      · have hk' : s.Active k := by simpa [Active, goto, hne] using hk
        exact absurd hk' (h.not_active hr)

/-- The last section of a child is where it stops being active and `mRunning` becomes false. -/
theorem LifeCycle.close (h : s.LifeCycle) (hstep : Step s (.child k .close) t) : t.LifeCycle := by
  obtain ⟨result, hpc, ⟨-, rfl⟩ | ⟨-, -, rfl⟩⟩ := step_close hstep
  · have hk : k = s.runs := h.closing_eq hpc
    have hno : ∀ j, ¬Active (({ s with thread := { s.thread with
        mExitPending := true, mRunning := false, mThread := noThread } }.record
        (.ended k s.thread.mStatus)).goto k .exited) j := by
      rintro j ⟨pc, hj, hne⟩
      rcases eq_or_ne j k with rfl | hjk
      · simp only [goto, Function.update_self, Option.some.injEq] at hj
        exact hne hj.symm
      · simp only [goto, Function.update_of_ne hjk] at hj
        exact hjk ((h.active j ⟨pc, hj, hne⟩).1.trans hk.symm)
    exact { h with
      alive := fun j => (h.alive j).trans (isSome_goto hpc).symm
      old := fun j hj => h.old j ((isSome_goto hpc).symm.trans hj)
      active := fun j hj => absurd hj (hno j)
      running := by rintro ⟨⟩
      idle := fun _ => rfl }
  · exact h.congr rfl rfl rfl rfl (fun j => isSome_goto hpc)
      (fun j => active_goto hpc (by simp) (by simp)) h.free

theorem LifeCycle.exit (h : s.LifeCycle) (hstep : Step s (.child k .exit) t) : t.LifeCycle := by
  obtain ⟨⟨-, pc, hpc, rfl⟩, rfl⟩ := hstep
  have hactive : ∀ j, Active (s.exec (.child k .exit)) j → j ≠ k ∧ s.Active j := by
    rintro j ⟨pc, hj, hne⟩
    rcases eq_or_ne j k with rfl | hjk
    · simp [exec, child] at hj
    · simp only [exec, child, Function.update_of_ne hjk] at hj
      exact ⟨hjk, pc, hj, hne⟩
  refine { h with
    distinct := fun d e x hd he => h.distinct d e x (update_none_eq_some hd) (update_none_eq_some he)
    valid := fun d x hd => h.valid d x (update_none_eq_some hd)
    alive := ?_
    old := ?_
    active := ?_
    running := ?_ }
  · intro j
    rcases eq_or_ne j k with rfl | hjk
    · simp [exec, child]
    · simpa [exec, child, hjk] using h.alive j
  · intro j hj
    rcases eq_or_ne j k with rfl | hjk
    · simp [exec, child] at hj
    · simp only [exec, child, Function.update_of_ne hjk] at hj
      exact h.old j hj
  · intro j hj
    obtain ⟨hjk, hj⟩ := hactive j hj
    simpa [exec, child, hjk] using h.active j hj
  · intro hr
    obtain ⟨pc, hpc', hne⟩ := h.running hr
    have hk : s.runs ≠ k := by
      rintro rfl
      rw [hpc, Option.some.injEq] at hpc'
      exact hne hpc'.symm
    exact ⟨pc, by simpa [exec, child, hk] using hpc', hne⟩

/-! ### Waits -/

/-- The only thread that a wait can refuse is the active child. -/
theorem LifeCycle.mThread_eq_iff (h : s.LifeCycle) (hc : s.id c = some i) :
    s.thread.mThread = i ↔ ∃ k, c = .child k ∧ s.Active k := by
  constructor
  · rintro rfl
    cases hr : s.thread.mRunning with
    | false => exact absurd (h.idle hr) (h.valid c _ hc)
    | true =>
      have hk := h.running hr
      exact ⟨s.runs, h.distinct _ _ _ hc (h.active _ hk).2.2, hk⟩
  · rintro ⟨k, rfl, hk⟩
    rw [(h.active k hk).2.2, Option.some.injEq] at hc
    exact hc

/-- A child never waits for itself: only another thread gets past the test of the id. -/
theorem LifeCycle.waitStep (h : s.LifeCycle) (hc : ∀ k, c ≠ .child k) (hstep : s.WaitStep c o t) :
    t.LifeCycle := by
  obtain ⟨pending, ⟨-, -, f, rfl⟩ | ⟨-, rfl⟩⟩ := hstep
  · exact h.congr rfl rfl rfl rfl (fun _ => rfl) (fun _ => Iff.rfl) fun k => by
      simpa [Function.update_of_ne (hc k).symm] using h.free k
  · exact h.congr rfl rfl rfl rfl (fun _ => rfl) (fun _ => Iff.rfl) fun k => by
      simpa [record, Function.update_of_ne (hc k).symm] using h.free k

/-- A thread that can call and is not refused is no child. -/
theorem LifeCycle.not_child (h : s.LifeCycle) (hcall : s.CanCall c) (hc : s.id c = some i)
    (hne : s.thread.mThread ≠ i) : ∀ k, c ≠ .child k := by
  rintro k rfl
  refine hne ((h.mThread_eq_iff hc).mpr ⟨k, rfl, ?_⟩)
  rcases hcall.2.2 k rfl with hpc | hpc
  · exact ⟨_, hpc, nofun⟩
  · exact ⟨_, hpc, nofun⟩

theorem LifeCycle.step (h : s.LifeCycle) (hstep : Step s a t) : t.LifeCycle := by
  cases a with
  | start p i => exact h.start hstep
  | finish p => exact h.finish hstep
  | call c f =>
    have hcall : s.CanCall c := hstep.1.1
    cases f with
    | run created => exact h.run hstep
    | requestExit =>
      obtain ⟨-, rfl⟩ := hstep
      exact h.congr rfl rfl rfl rfl (fun _ => rfl) (fun _ => Iff.rfl) h.free
    | requestExitAndWait =>
      obtain ⟨i, hi, ⟨-, rfl⟩ | ⟨hne, hwait⟩⟩ := step_requestExitAndWait hstep
      · exact h
      · exact h.waitStep (h.not_child hcall hi hne) hwait
    | join =>
      obtain ⟨i, hi, ⟨-, rfl⟩ | ⟨hne, hwait⟩⟩ := step_join hstep
      · exact h
      · exact h.waitStep (h.not_child hcall hi hne) hwait
    | exitPending =>
      obtain ⟨-, rfl⟩ := hstep
      exact h
  | wakeUp c =>
    obtain ⟨f, o, hw, hwait⟩ := step_wakeUp hstep
    refine h.waitStep ?_ hwait
    intro k hk
    rw [hk, h.free k] at hw
    cases hw
  | child k b =>
    rcases b.close_or_exit_or with rfl | rfl | ⟨hclose, hexit⟩
    · exact h.close hstep
    · exact h.exit hstep
    · exact h.moves hstep hclose hexit

theorem LifeCycle.of_run (hrun : Runs tr s) : s.LifeCycle :=
  hrun.invariant lifeCycle_start fun _ _ hstep h => h.step hstep

/-- An active child is moved by its own steps only, and no run is made beside it. -/
theorem LifeCycle.pc_step (h : s.LifeCycle) (hstep : Step s a t) (hpc : s.pc s.runs = some pc)
    (hne : pc ≠ .exited) (ha : ∀ b, a ≠ .child s.runs b) : t.runs = s.runs ∧ t.pc s.runs = some pc := by
  rcases step_cases hstep with ⟨c, created, rfl⟩ | ⟨k, b, rfl⟩ | hcaller
  · have hr : s.thread.mRunning = true := (h.active _ ⟨pc, hpc, hne⟩).2.1
    rcases step_run hstep with ⟨-, rfl⟩ | ⟨hno, -⟩ | ⟨hno, -⟩
    · exact ⟨rfl, hpc⟩
    · exact absurd hr (by simp [hno])
    · exact absurd hr (by simp [hno])
  · have hk : s.runs ≠ k := by
      rintro rfl
      exact ha b rfl
    rcases b.close_or_exit_or with rfl | rfl | ⟨hclose, hexit⟩
    · obtain ⟨result, -, ⟨-, rfl⟩ | ⟨-, -, rfl⟩⟩ := step_close hstep
      · exact ⟨rfl, by simpa [goto, record, hk] using hpc⟩
      · exact ⟨rfl, by simpa [goto, record, hk] using hpc⟩
    · obtain ⟨-, rfl⟩ := hstep
      exact ⟨rfl, by simpa [exec, child, hk] using hpc⟩
    · obtain ⟨_, _, _, _, -, -, rfl⟩ := step_moves hstep hclose hexit
      exact ⟨rfl, by simpa [hk] using hpc⟩
  · obtain ⟨_, _, _, _, rfl, -⟩ := hcaller
    exact ⟨rfl, hpc⟩

/-! ### What callers can rely on -/

/-- At most one child is active; `mRunning` and `mThread` say which; `run` refuses exactly while one
    is active and a failed creation does not stop the next; a wait refuses exactly that child. -/
structure OneChild (s : ThreadSys) : Prop where
  unique : ∀ k j, s.Active k → s.Active j → k = j
  mRunning : s.thread.mRunning = true ↔ ∃ k, s.Active k
  mThread : ∀ k, s.Active k → s.id (.child k) = some s.thread.mThread
  noThread : (∀ k, ¬s.Active k) → s.thread.mThread = noThread
  run : ∀ created, (s.thread.run created).1 = invalidOperation ↔ ∃ k, s.Active k
  refused : ∀ c created t, Step s (.call c (.run created)) t → (∃ k, s.Active k) → t = s
  failed : ∀ c t, Step s (.call c (.run none)) t → (∀ k, ¬s.Active k) →
    (∀ k, ¬t.Active k) ∧ ∀ i, (t.thread.run (some i)).1 = noError
  requestExitAndWait : ∀ c i, s.id c = some i →
    (s.thread.requestExitAndWait i = .wouldBlock ↔ ∃ k, c = .child k ∧ s.Active k)
  join : ∀ c i, s.id c = some i →
    (s.thread.join i = .wouldBlock ↔ ∃ k, c = .child k ∧ s.Active k)

theorem LifeCycle.mRunning_iff (h : s.LifeCycle) :
    s.thread.mRunning = true ↔ ∃ k, s.Active k :=
  ⟨fun hr => ⟨_, h.running hr⟩, fun ⟨k, hk⟩ => (h.active k hk).2.1⟩

theorem LifeCycle.mRunning_eq_false (h : s.LifeCycle) (hno : ∀ k, ¬s.Active k) :
    s.thread.mRunning = false := by
  rw [← Bool.not_eq_true, h.mRunning_iff]
  rintro ⟨k, hk⟩
  exact hno k hk

theorem run_eq_invalidOperation {self : Thread} :
    (self.run created).1 = invalidOperation ↔ self.mRunning = true := by
  cases hr : self.mRunning with
  | true => simp [Thread.run, hr]
  | false =>
    cases created with
    | none => simp [Thread.run, hr, unknownError, invalidOperation]
    | some i => simp [Thread.run, hr, noError, invalidOperation]

theorem waitForExit_ne_wouldBlock {self : Thread} {f : WaitCall} :
    self.waitForExit f ≠ .wouldBlock := by
  cases hr : self.mRunning <;> cases f <;> simp [Thread.waitForExit, hr]

theorem requestExitAndWait_eq_wouldBlock {self : Thread} :
    self.requestExitAndWait i = .wouldBlock ↔ self.mThread = i := by
  rcases eq_or_ne self.mThread i with heq | hne
  · simp [Thread.requestExitAndWait, heq]
  · simp [Thread.requestExitAndWait, hne, waitForExit_ne_wouldBlock]

theorem join_eq_wouldBlock {self : Thread} : self.join i = .wouldBlock ↔ self.mThread = i := by
  rcases eq_or_ne self.mThread i with heq | hne
  · simp [Thread.join, heq]
  · simp [Thread.join, hne, waitForExit_ne_wouldBlock]

/-- A failed creation leaves the object as before `run`, but for the status. -/
theorem LifeCycle.failed (h : s.LifeCycle) (hstep : Step s (.call c (.run none)) t)
    (hno : ∀ k, ¬s.Active k) : (∀ k, ¬t.Active k) ∧ ∀ j, (t.thread.run (some j)).1 = noError := by
  rcases step_run hstep with ⟨hr, -⟩ | ⟨-, rfl⟩ | ⟨-, i, hi, -⟩
  · rw [h.mRunning_eq_false hno] at hr
    cases hr
  · exact ⟨hno, fun _ => rfl⟩
  · cases hi

/-- Whoever calls, in whatever order, over however many runs of the object. -/
theorem one_child (hrun : Runs tr s) : s.OneChild := by
  have h := LifeCycle.of_run hrun
  refine ⟨?_, h.mRunning_iff, ?_, ?_, ?_, ?_, ?_, ?_, ?_⟩
  · intro k j hk hj
    exact (h.active k hk).1.trans (h.active j hj).1.symm
  · intro k hk
    exact (h.active k hk).2.2
  · intro hno
    exact h.idle (h.mRunning_eq_false hno)
  · intro created
    exact run_eq_invalidOperation.trans h.mRunning_iff
  · intro c created t hstep hk
    rcases step_run hstep with ⟨-, rfl⟩ | ⟨hr, -⟩ | ⟨hr, -⟩
    · rfl
    · exact absurd (h.mRunning_iff.mpr hk) (by simp [hr])
    · exact absurd (h.mRunning_iff.mpr hk) (by simp [hr])
  · intro c t hstep hno
    exact h.failed hstep hno
  · intro c i hc
    exact requestExitAndWait_eq_wouldBlock.trans (h.mThread_eq_iff hc)
  · intro c i hc
    exact join_eq_wouldBlock.trans (h.mThread_eq_iff hc)

theorem update_ne_some {g : Thr → Option ThreadId} {i j : ThreadId} (h : ∀ d, g d ≠ some i)
    (hj : j ≠ i) : ∀ d, Function.update g c (some j) d ≠ some i := by
  intro d
  rcases eq_or_ne d c with rfl | hne
  · simpa using hj
  · simpa [hne] using h d

/-- A thread of id 1 has run the object and the child of id 2 has not done anything yet. -/
def firstRun : ThreadSys where
  thread := ⟨2, noError, false, true⟩
  id := Function.update (Function.update (fun _ => none) (.other 0) (some 1)) (.child 1) (some 2)
  pc := Function.update (fun _ => none) 1 (some .top)
  waiting _ := none
  runs := 1
  log := []

theorem runs_firstRun : ∃ tr, Runs tr firstRun ∧
    ∀ x ∈ tr, (∀ k b, x.act ≠ .child k b) ∧ ∀ c, x.pre.waiting c = none := by
  have h₀ : Runs [] start := Run.nil
  have h₁ := h₀.snoc (a := ThreadAct.start 0 1) ⟨⟨rfl, rfl, by decide, by simp [start]⟩, rfl⟩
  refine ⟨_, h₁.snoc (a := ThreadAct.call (.other 0) (.run (some 2))) ⟨⟨canCall_other rfl rfl, ?_⟩, rfl⟩,
    by simp [start, exec]⟩
  rintro i ⟨⟩
  exact ⟨by decide, update_ne_some (by simp [start]) (by decide)⟩

/-- Child `k` can do these, one after the other. -/
def CanDo (s : ThreadSys) (k : ℕ) : List ChildAct → Prop
  | [] => True
  | b :: bs => s.Enabled (.child k b) ∧ (s.exec (.child k b)).CanDo k bs

instance : (s : ThreadSys) → (k : ℕ) → (bs : List ChildAct) → Decidable (s.CanDo k bs)
  | _, _, [] => .isTrue trivial
  | s, k, b :: bs =>
    have := instDecidableCanDo (s.exec (.child k b)) k bs
    inferInstanceAs (Decidable (_ ∧ _))

/-- The steps in which child `k` does them, and the state they lead to. -/
def childSteps (s : ThreadSys) (k : ℕ) : List ChildAct → List (Taken ThreadSys ThreadAct)
  | [] => []
  | b :: bs => ⟨s, .child k b, s.exec (.child k b)⟩ :: (s.exec (.child k b)).childSteps k bs

def afterChild (s : ThreadSys) (k : ℕ) (bs : List ChildAct) : ThreadSys :=
  bs.foldl (fun s b => s.exec (.child k b)) s

theorem runs_childSteps (hrun : Runs tr s) (k : ℕ) (bs : List ChildAct) (h : s.CanDo k bs) :
    Runs (tr ++ s.childSteps k bs) (s.afterChild k bs) := by
  induction bs generalizing s tr with
  | nil => simpa [childSteps, afterChild] using hrun
  | cons b bs ih =>
    obtain ⟨hb, hbs⟩ := h
    have hrest := ih (hrun.snoc ⟨hb, rfl⟩) hbs
    rwa [List.append_assoc] at hrest

theorem mem_childSteps {x : Taken ThreadSys ThreadAct} {bs : List ChildAct}
    (hx : x ∈ s.childSteps k bs) : ∃ b ∈ bs, x.act = .child k b := by
  induction bs generalizing s with
  | nil => cases hx
  | cons b bs ih =>
    rcases List.mem_cons.mp hx with rfl | hx
    · exact ⟨b, List.mem_cons_self, rfl⟩
    · obtain ⟨b', hb', hact⟩ := ih hx
      exact ⟨b', List.mem_cons_of_mem _ hb', hact⟩

/-- The child of that run is the one that a `join` refuses. -/
theorem one_child_firstRun : firstRun.OneChild ∧ firstRun.thread.join 2 = .wouldBlock := by
  obtain ⟨tr, hrun, -⟩ := runs_firstRun
  exact ⟨one_child hrun, rfl⟩

end ThreadSys

end ThreadManager
