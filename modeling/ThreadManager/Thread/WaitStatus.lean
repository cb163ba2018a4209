import ThreadManager.Thread.RunLog

/-! The status a wait returns.

    A waiter that is woken tests `mRunning` again and then reads `mStatus`, and neither says which run
    it is about. As long as no `run` gets past its test while somebody still waits, every waiter waits
    for the latest run and reads the status that one ended with. One that does makes the waiter sleep
    on, and then report the later run. -/

namespace ThreadManager
open Schemes

/-- What the last `readyToRun` of these events returned. -/
def lastStatus (l : List ThreadEvent) : Option Status :=
  (l.filterMap fun
    | .readyToRunReturned _ status => some status
    | _ => none).getLast?

section Grammar
variable {k : ℕ} {status m : Status} {pc : Option ChildPc} {l l' : List ThreadEvent}

theorem lastStatus_append (h : lastStatus l' = some status) :
    lastStatus (l ++ l') = some status := by
  rw [lastStatus] at h
  rw [lastStatus, List.filterMap_append, List.getLast?_append, h, Option.some_or]

theorem Iteration.lastStatus_ended (h : Iteration k status l) :
    lastStatus (l ++ [.ended k status]) = some status := by
  cases h <;> rfl

theorem Iteration.not_mem_ended (h : Iteration k status l) : .ended k m ∉ l := by
  cases h <;> simp

theorem Iterations.not_mem_ended (h : Iterations k l) : .ended k m ∉ l := by
  induction h with
  | nil => exact List.not_mem_nil
  | snoc h hi ih => simp [ih, hi.not_mem_ended]

/-- A run ends with what its last `readyToRun` returned. -/
theorem Reported.lastStatus_eq (h : Reported k m pc l) (hended : .ended k status ∈ l) :
    lastStatus l = some status := by
  cases h with
  | notStarted => simp at hended
  | failed => simp at hended
  | top hi => exact absurd hended hi.not_mem_ended
  | inReadyToRun hi => simp [hi.not_mem_ended] at hended
  | readyToRunReturned hi => simp [hi.not_mem_ended] at hended
  | testingExit hi _ => simp [hi.not_mem_ended] at hended
  | callingThreadLoop hi _ => simp [hi.not_mem_ended] at hended
  | inThreadLoop hi _ => simp [hi.not_mem_ended] at hended
  | closing hi hl => simp [hi.not_mem_ended, hl.not_mem_ended] at hended
  | exited hi hl =>
    obtain rfl : status = _ := by simpa [hi.not_mem_ended, hl.not_mem_ended] using hended
    rw [List.append_assoc]
    exact lastStatus_append hl.lastStatus_ended
  | gone hi hl =>
    obtain rfl : status = _ := by simpa [hi.not_mem_ended, hl.not_mem_ended] using hended
    rw [List.append_assoc]
    exact lastStatus_append hl.lastStatus_ended

end Grammar

namespace ThreadSys

variable {s t : ThreadSys} {a : ThreadAct} {b : ChildAct} {c : Thr} {k : ℕ} {o : Option ℕ}
  {status : Status} {created : Option ThreadId} {f : WaitCall}
  {tr : List (Taken ThreadSys ThreadAct)}

/-- If the step is a `run` that gets past its test of `mRunning`, nobody is waiting. -/
def RunsAlone (x : Taken ThreadSys ThreadAct) : Prop :=
  ∀ c created, x.act = .call c (.run created) → x.pre.thread.mRunning = false →
    ∀ d, x.pre.waiting d = none

/-- Everybody who waits waits for the latest run, and once that is over `mStatus` is what it ended
    with; and whoever has waited for a run was told what it ended with. -/
structure WaitsForLatest (s : ThreadSys) : Prop where
  waiting : ∀ d f o, s.waiting d = some (f, o) → o = some s.runs ∧
    (s.thread.mRunning = false → .ended s.runs s.thread.mStatus ∈ s.log)
  waited : ∀ c k status, .waited c (some k) status ∈ s.log → .ended k status ∈ s.log

theorem waitsForLatest_start : start.WaitsForLatest := ⟨nofun, nofun⟩

/-- A step that reports no wait, keeps who waits and keeps the object running if it is. -/
theorem WaitsForLatest.congr {es : List ThreadEvent} (h : s.WaitsForLatest)
    (hwaiting : t.waiting = s.waiting) (hruns : t.runs = s.runs) (hlog : t.log = s.log ++ es)
    (hes : ∀ c k status, .waited c (some k) status ∉ es)
    (hdone : t.thread.mRunning = false → .ended s.runs t.thread.mStatus ∈ t.log ∨
      s.thread.mRunning = false ∧ t.thread.mStatus = s.thread.mStatus) : t.WaitsForLatest where
  waiting d f o hd := by
    rw [hwaiting] at hd
    obtain ⟨ho, hold⟩ := h.waiting d f o hd
    rw [hruns]
    refine ⟨ho, ?_⟩
    intro hr
    rcases hdone hr with hended | ⟨hr', hm⟩
    · exact hended
    · rw [hm, hlog]
      exact List.mem_append_left _ (hold hr')
  waited c k status hmem := by
    rw [hlog] at hmem ⊢
    rcases List.mem_append.mp hmem with hold | hnew
    · exact List.mem_append_left _ (h.waited c k status hold)
    · exact absurd hnew (hes c k status)

theorem WaitsForLatest.run (h : s.WaitsForLatest) (hstep : Step s (.call c (.run created)) t)
    (halone : s.thread.mRunning = false → ∀ d, s.waiting d = none) : t.WaitsForLatest := by
  rcases step_run hstep with ⟨-, rfl⟩ | ⟨hr, rfl⟩ | ⟨hr, i, -, -, rfl⟩
  · exact h
  · refine ⟨?_, ?_⟩
    · intro d f o hd
      exact absurd hd (by simp [record, halone hr d])
    · intro c k status hmem
      simp only [record, List.mem_append, List.mem_singleton, reduceCtorEq, or_false] at hmem ⊢
      exact h.waited c k status hmem
  · refine ⟨?_, h.waited⟩
    intro d f o hd
    exact absurd hd (by simp [goto, halone hr d])

theorem WaitsForLatest.child (h : s.WaitsForLatest) (hl : s.LifeCycle)
    (hstep : Step s (.child k b) t) : t.WaitsForLatest := by
  rcases b.close_or_exit_or with rfl | rfl | ⟨hclose, hexit⟩
  · obtain ⟨result, hpc, ⟨-, rfl⟩ | ⟨-, -, rfl⟩⟩ := step_close hstep
    · -- the run that ends is the latest one
      have hk : k = s.runs := hl.closing_eq hpc
      refine h.congr rfl rfl rfl (by simp) fun _ => Or.inl ?_
      simp [goto, record, hk]
    · exact h.congr rfl rfl rfl (by simp) fun hr => Or.inr ⟨hr, rfl⟩
  · obtain ⟨-, rfl⟩ := hstep
    exact h.congr rfl rfl (List.append_nil _).symm (by simp) fun hr => Or.inr ⟨hr, rfl⟩
  · obtain ⟨pc, pc', status, es, hm, hpc, rfl⟩ := step_moves hstep hclose hexit
    have hr : s.thread.mRunning = true := (hl.active k ⟨pc, hpc, hm.ne_exited.1⟩).2.1
    refine h.congr rfl rfl rfl ?_ ?_
    · cases hm <;> simp
    · intro hno
      simp [hr] at hno

/-- A wait begins for the run that is active, and ends when the latest one is over. -/
theorem WaitsForLatest.waitStep (h : s.WaitsForLatest)
    (ho : o = s.activeRun ∨ ∃ f, s.waiting c = some (f, o)) (hstep : s.WaitStep c o t) :
    t.WaitsForLatest := by
  obtain ⟨pending, ⟨hr, -, f, rfl⟩ | ⟨hr, rfl⟩⟩ := hstep
  · refine ⟨fun d f' o' hd => ⟨?_, ?_⟩, h.waited⟩
    · rcases eq_or_ne d c with rfl | hne
      · obtain ⟨-, rfl⟩ : f = f' ∧ o = o' := by simpa using hd
        rcases ho with rfl | ⟨f, hw⟩
        · simp [activeRun, hr]
        · exact (h.waiting _ _ _ hw).1
      · simp only [Function.update_of_ne hne] at hd
        exact (h.waiting d f' o' hd).1
    · intro hno
      simp [hr] at hno
  · refine ⟨?_, ?_⟩
    · intro d f' o' hd
      rcases eq_or_ne d c with rfl | hne
      · simp [record] at hd
      · simp only [record, Function.update_of_ne hne] at hd ⊢
        obtain ⟨ho', hended⟩ := h.waiting d f' o' hd
        exact ⟨ho', fun hno => List.mem_append_left _ (hended hno)⟩
    · intro c' k status hmem
      refine List.mem_append_left _ ?_
      rcases List.mem_append.mp hmem with hold | hnew
      · exact h.waited c' k status hold
      · obtain ⟨-, rfl, rfl⟩ : c' = c ∧ some k = o ∧ status = s.thread.mStatus := by
          simpa using hnew
        rcases ho with hactive | ⟨f, hw⟩
        · simp [activeRun, hr] at hactive
        · obtain ⟨hk, hended⟩ := h.waiting _ _ _ hw
          rw [Option.some.inj hk]
          exact hended hr

theorem WaitsForLatest.step (h : s.WaitsForLatest) (hl : s.LifeCycle) (hstep : Step s a t)
    (halone : RunsAlone ⟨s, a, t⟩) : t.WaitsForLatest := by
  cases a with
  | start p i =>
    obtain ⟨-, rfl⟩ := hstep
    exact h.congr rfl rfl (List.append_nil _).symm nofun fun hr => Or.inr ⟨hr, rfl⟩
  | finish p =>
    obtain ⟨-, rfl⟩ := hstep
    exact h.congr rfl rfl (List.append_nil _).symm nofun fun hr => Or.inr ⟨hr, rfl⟩
  | call c f =>
    cases f with
    | run created => exact h.run hstep (halone c created rfl)
    | requestExit =>
      obtain ⟨-, rfl⟩ := hstep
      exact h.congr rfl rfl (List.append_nil _).symm nofun fun hr => Or.inr ⟨hr, rfl⟩
    | requestExitAndWait =>
      obtain ⟨-, -, ⟨-, rfl⟩ | ⟨-, hwait⟩⟩ := step_requestExitAndWait hstep
      · exact h
      · exact h.waitStep (Or.inl rfl) hwait
    | join =>
      obtain ⟨-, -, ⟨-, rfl⟩ | ⟨-, hwait⟩⟩ := step_join hstep
      · exact h
      · exact h.waitStep (Or.inl rfl) hwait
    | exitPending =>
      obtain ⟨-, rfl⟩ := hstep
      exact h
  | wakeUp c =>
    obtain ⟨f, o, hw, hwait⟩ := step_wakeUp hstep
    exact h.waitStep (Or.inr ⟨f, hw⟩) hwait
  | child k b => exact h.child hl hstep

/-- As long as no `run` gets past its test of `mRunning` while somebody waits, whoever waited while
    run `k` was active is told the status run `k` ended with, which its last `readyToRun` returned. -/
theorem wait_status_when (hrun : Runs tr s) (halone : ∀ x ∈ tr, RunsAlone x)
    (hwaited : .waited c (some k) status ∈ s.log) :
    .ended k status ∈ s.log ∧ lastStatus (eventsOf k s.log) = some status := by
  have h := hrun.invariant (I := fun s => s.LifeCycle ∧ s.WaitsForLatest)
    ⟨lifeCycle_start, waitsForLatest_start⟩ fun x hx hstep h =>
      ⟨h.1.step hstep, h.2.step h.1 hstep (halone x hx)⟩
  have hended := h.2.waited c k status hwaited
  refine ⟨hended, ((Recorded.of_run hrun).reported k).lastStatus_eq ?_⟩
  exact List.mem_filter.mpr ⟨hended, by simp [ThreadEvent.ofRun]⟩

/-- A `join` that waits while the first run fails with 5 returns 5. -/
theorem wait_status_when_alone : ∃ tr s, Runs tr s ∧
    .waited (.other 0) (some 1) 5 ∈ s.log ∧ lastStatus (eventsOf 1 s.log) = some 5 := by
  obtain ⟨tr, h₀, hno⟩ := runs_firstRun
  have h₁ := h₀.snoc (a := ThreadAct.call (.other 0) .join) ⟨⟨canCall_other rfl rfl, nofun⟩, rfl⟩
  have h₂ := runs_childSteps h₁ 1 [.callReadyToRun, .readyToRunReturns 5, .readStatus, .close]
    (by decide)
  have h₃ := h₂.snoc (a := ThreadAct.wakeUp (.other 0)) ⟨rfl, rfl⟩
  refine ⟨_, _, h₃, by decide, (wait_status_when h₃ ?_ (c := .other 0) (by decide)).2⟩
  simp only [List.forall_mem_append, List.forall_mem_singleton]
  refine ⟨⟨⟨fun x hx _ _ _ _ => (hno x hx).2, nofun⟩, ?_⟩, nofun⟩
  intro x hx c created hact
  obtain ⟨b, -, hact'⟩ := mem_childSteps hx
  rw [hact] at hact'
  cases hact'

/-- The same wait, but another thread runs the object again before the waiter has the lock: it
    sleeps on and returns 7, which is what the second run ended with. -/
theorem wait_status_later_run : ∃ tr s, Runs tr s ∧ .ended 1 5 ∈ s.log ∧
    lastStatus (eventsOf 1 s.log) = some 5 ∧ .waited (.other 0) (some 1) 7 ∈ s.log ∧
    .ended 1 7 ∉ s.log := by
  obtain ⟨tr, h₀, -⟩ := runs_firstRun
  have h₁ := h₀.snoc (a := ThreadAct.call (.other 0) .join) ⟨⟨canCall_other rfl rfl, nofun⟩, rfl⟩
  have h₂ := h₁.snoc (a := ThreadAct.start 1 3) ⟨⟨rfl, rfl, by decide,
    update_ne_some (update_ne_some (fun _ => nofun) (by decide)) (by decide)⟩, rfl⟩
  have h₃ := runs_childSteps h₂ 1 [.callReadyToRun, .readyToRunReturns 5, .readStatus, .close]
    (by decide)
  have h₄ := h₃.snoc (a := ThreadAct.call (.other 1) (.run (some 4))) ⟨⟨canCall_other rfl rfl, by
    rintro i ⟨⟩
    exact ⟨by decide, update_ne_some (update_ne_some (update_ne_some (fun _ => nofun) (by decide))
      (by decide)) (by decide)⟩⟩, rfl⟩
  have h₅ := runs_childSteps h₄ 2 [.callReadyToRun, .readyToRunReturns 7, .readStatus, .close]
    (by decide)
  have h₆ := h₅.snoc (a := ThreadAct.wakeUp (.other 0)) ⟨rfl, rfl⟩
  exact ⟨_, _, h₆, by decide, by decide, by decide, by decide⟩

end ThreadSys

end ThreadManager
