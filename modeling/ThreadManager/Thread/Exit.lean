import ThreadManager.Thread.LifeCycle

/-! Exit requests and the end of a wait.

    A request made while a run is active is kept until that run ends: `run` clears the flag only
    when nothing runs, and a returning `requestExitAndWait` only then. The child may already be past
    its own test of the flag, so one more `threadLoop` call can begin, but the section after it ends
    the run. And when a wait returns nothing runs, so children are quiet until the next `run`. -/

namespace ThreadManager
open Schemes

/-- It is a call of `run`. -/
def ThreadAct.IsRun : ThreadAct → Prop
  | .call _ (.run _) => True
  | _ => False

/-- A child does it, and it is more than leaving `_threadLoop`. -/
def ThreadAct.ByChild : ThreadAct → Prop
  | .call (.child _) _ => True
  | .wakeUp (.child _) => True
  | .child _ b => b ≠ .exit
  | _ => False

/-- Where a child is from its call of `threadLoop` to the end of the iteration. -/
def ChildPc.InLoop : ChildPc → Prop
  | .inThreadLoop => True
  | .closing _ => True
  | .exited => True
  | _ => False

namespace ThreadSys

variable {s t : ThreadSys} {a : ThreadAct} {b : ChildAct} {c : Thr} {k j : ℕ} {o : Option ℕ}
  {status : Status} {pc pc' : ChildPc} {es : List ThreadEvent} {L I : ℕ → ℕ}
  {tr : List (Taken ThreadSys ThreadAct)}

/-! ### A request is kept -/

/-- The request stands while the object runs; since it was made, child `k` has gone round the loop
    no more and has called `threadLoop` at most once, and then it is past the call. -/
structure Requested (L I : ℕ → ℕ) (s : ThreadSys) : Prop where
  pending : s.thread.mRunning = true → s.thread.mExitPending = true
  iterated : ∀ k, s.log.count (.iterated k) = I k
  loops : ∀ k, s.log.count (.threadLoop k) = L k ∨
    s.log.count (.threadLoop k) = L k + 1 ∧ ∀ pc, s.pc k = some pc → pc.InLoop

/-- A move of a child that neither calls `threadLoop` nor goes back before it. -/
theorem Requested.goto (h : s.Requested L I) (hpc : s.pc j = some pc)
    (htpc : t.pc = Function.update s.pc j (some pc')) (hlog : t.log = s.log ++ es)
    (hin : pc.InLoop → pc'.InLoop) (hloop : ∀ k, es.count (.threadLoop k) = 0)
    (hiter : ∀ k, es.count (.iterated k) = 0)
    (hrun : t.thread.mRunning = true → s.thread.mRunning = true)
    (hpend : t.thread.mRunning = true → t.thread.mExitPending = s.thread.mExitPending) :
    t.Requested L I where
  pending hr := (hpend hr).trans (h.pending (hrun hr))
  iterated k := by rw [hlog, List.count_append, hiter, h.iterated, add_zero]
  loops k := by
    rw [hlog, List.count_append, hloop, add_zero, htpc]
    refine (h.loops k).imp_right fun ⟨hcount, hpast⟩ => ⟨hcount, ?_⟩
    intro pc₁ hpc₁
    rcases eq_or_ne k j with rfl | hne
    · rw [Function.update_self, Option.some.injEq] at hpc₁
      exact hpc₁ ▸ hin (hpast pc hpc)
    · rw [Function.update_of_ne hne] at hpc₁
      exact hpast pc₁ hpc₁

theorem Requested.moves (h : s.Requested L I) (hstep : Step s (.child j b) t) (hb : b ≠ .close)
    (hb' : b ≠ .exit) : t.Requested L I := by
  obtain ⟨pc, pc', status, es, hm, hpc, rfl⟩ := step_moves hstep hb hb'
  cases hm with
  | callThreadLoop =>
    refine ⟨h.pending, ?_, ?_⟩
    · intro k
      rw [List.count_append, h.iterated]
      rfl
    · intro k
      rcases eq_or_ne k j with rfl | hne
      · -- it was before the call, so this is the first one since the request
        refine Or.inr ⟨?_, ?_⟩
        · rcases h.loops k with hcount | ⟨-, hpast⟩
          · simp [hcount]
          · exact False.elim (hpast _ hpc)
        · intro pc₁ hpc₁
          simp only [Function.update_self, Option.some.injEq] at hpc₁
          rw [← hpc₁]
          trivial
      · simpa [List.count_singleton, hne, hne.symm] using h.loops k
  | threadLoopReturns result =>
    exact h.goto hpc rfl rfl (fun _ => trivial) (fun _ => rfl) (fun _ => rfl) (fun hr => hr)
      fun _ => rfl
  | _ => exact h.goto hpc rfl rfl False.elim (fun _ => rfl) (fun _ => rfl) (fun hr => hr) fun _ => rfl

/-- Nothing a caller or the child does while the object runs takes the request back. -/
theorem Requested.step (h : s.Requested L I) (hr : s.thread.mRunning = true) (hstep : Step s a t) :
    t.Requested L I := by
  rcases step_cases hstep with ⟨c, created, rfl⟩ | ⟨j, b, rfl⟩ | hcaller
  · rcases step_run hstep with ⟨-, rfl⟩ | ⟨hno, -⟩ | ⟨hno, -⟩
    · exact h
    · exact absurd hr (by simp [hno])
    · exact absurd hr (by simp [hno])
  · rcases b.close_or_exit_or with rfl | rfl | ⟨hclose, hexit⟩
    · obtain ⟨result, hpc, ⟨-, rfl⟩ | ⟨-, hno, -⟩⟩ := step_close hstep
      · exact h.goto hpc rfl rfl (fun _ => trivial) (fun _ => rfl) (fun _ => rfl) nofun nofun
      · exact absurd (h.pending hr) (by simp [hno])
    · obtain ⟨-, rfl⟩ := hstep
      refine ⟨h.pending, h.iterated, fun k => (h.loops k).imp_right fun ⟨hcount, hpast⟩ =>
        ⟨hcount, fun pc hpc => hpast pc ?_⟩⟩
      rcases eq_or_ne k j with rfl | hne
      · simp [exec, child] at hpc
      · simpa [exec, child, hne] using hpc
    · exact h.moves hstep hclose hexit
  · obtain ⟨ids, pending, waiting, es, rfl, hpend, hes⟩ := hcaller
    -- no wait returns while the object runs
    have hnil : es = [] := by
      refine List.eq_nil_iff_forall_not_mem.mpr ?_
      intro e he
      obtain ⟨-, -, -, hno⟩ := hes e he
      rw [hr] at hno
      cases hno
    subst hnil
    refine ⟨?_, by simpa using h.iterated, by simpa using h.loops⟩
    intro _
    rcases hpend hr with hp | hp
    · exact hp
    · exact hp.trans (h.pending hr)

/-- A `requestExit` sets a request while the object runs, and so does a `requestExitAndWait`, unless the
    active child itself makes it. -/
theorem LifeCycle.request_pending {f : ThreadCall} (h : s.LifeCycle) (hstep : Step s (.call c f) t)
    (hr : s.thread.mRunning = true)
    (hf : f = .requestExit ∨ f = .requestExitAndWait ∧ c ≠ .child s.runs) :
    t.thread.mExitPending = true := by
  rcases hf with rfl | ⟨rfl, hc⟩
  · obtain ⟨-, rfl⟩ := hstep
    rfl
  · obtain ⟨⟨⟨hid, -⟩, -⟩, rfl⟩ := hstep
    obtain ⟨i, hi⟩ := Option.isSome_iff_exists.mp hid
    have hne : s.thread.mThread ≠ i := by
      intro heq
      obtain ⟨k, rfl, hk⟩ := (h.mThread_eq_iff hi).mp heq
      exact hc (by rw [(h.active k hk).1])
    simp [exec, call, hi, Thread.requestExitAndWait, hne, wait, Thread.waitForExit, hr]

/-- A request that a `requestExit` or `requestExitAndWait` has set while the object runs stays until
    the run ends, and until then the child begins at most one more `threadLoop` and goes round the
    loop no more. -/
theorem exit_request_kept {tr₁ tr₂ : List (Taken ThreadSys ThreadAct)} {x : Taken ThreadSys ThreadAct}
    (hrun : Runs (tr₁ ++ x :: tr₂) s)
    (hpending : x.post.thread.mExitPending = true)
    (hrunning : ∀ y ∈ x :: tr₂, y.pre.thread.mRunning = true) :
    (s.thread.mRunning = true → s.thread.mExitPending = true) ∧ ∀ k,
      s.log.count (.threadLoop k) ≤ x.post.log.count (.threadLoop k) + 1 ∧
      s.log.count (.iterated k) = x.post.log.count (.iterated k) := by
  obtain ⟨-, -, hrest⟩ := hrun.split
  have h : s.Requested (fun k => x.post.log.count (.threadLoop k))
      (fun k => x.post.log.count (.iterated k)) :=
    hrest.invariant ⟨fun _ => hpending, fun _ => rfl, fun _ => Or.inl rfl⟩ fun y hy hstep h =>
      h.step (hrunning y (List.mem_cons_of_mem _ hy)) hstep
  refine ⟨h.pending, fun k => ⟨?_, h.iterated k⟩⟩
  rcases h.loops k with hcount | ⟨hcount, -⟩ <;> omega

/-- The child has tested the flag before the request, so it calls `threadLoop` once more. -/
theorem exit_request_kept_late : ∃ s, (∃ tr, Runs tr s) ∧
    s.log = [.readyToRun 1, .readyToRunReturned 1 noError, .threadLoop 1] ∧
    (s.thread.mRunning = true → s.thread.mExitPending = true) ∧
    s.log.count (.threadLoop 1) ≤ 0 + 1 := by
  obtain ⟨tr, h₀, -⟩ := runs_firstRun
  have h₁ := runs_childSteps h₀ 1
    [.callReadyToRun, .readyToRunReturns noError, .readStatus, .exitPending] (by decide)
  have h₂ := h₁.snoc (a := ThreadAct.call (.other 0) .requestExit) ⟨⟨canCall_other rfl rfl, nofun⟩, rfl⟩
  have h₃ := h₂.snoc (a := ThreadAct.child 1 .callThreadLoop) ⟨by decide, rfl⟩
  refine ⟨_, ⟨_, h₃⟩, rfl, ?_⟩
  rw [List.append_assoc] at h₃
  have h := exit_request_kept h₃ rfl (List.forall_mem_cons.mpr ⟨rfl, List.forall_mem_singleton.mpr rfl⟩)
  exact ⟨h.1, (h.2 1).1⟩

/-! ### Quiescence -/

/-- Only an active child does anything. -/
theorem LifeCycle.active_of_byChild (h : s.LifeCycle) (hstep : Step s a t) (ha : a.ByChild) :
    ∃ k, s.Active k := by
  obtain ⟨hen, -⟩ := hstep
  match a, ha with
  | .call (.child k) f, _ =>
    rcases hen.1.2.2 k rfl with hpc | hpc
    · exact ⟨k, _, hpc, nofun⟩
    · exact ⟨k, _, hpc, nofun⟩
  | .wakeUp (.child k), _ =>
    rw [Enabled, h.free k] at hen
    cases hen
  | .child k b, hb =>
    obtain ⟨-, pc, hpc, hat⟩ := hen
    refine ⟨k, pc, hpc, ?_⟩
    rintro rfl
    cases b with
    | exit => exact hb rfl
    | close => obtain ⟨_, ⟨⟩⟩ := hat
    | _ => cases hat

/-- An object that does not run starts to run by a call of `run` only. -/
theorem LifeCycle.step_idle (h : s.LifeCycle) (hstep : Step s a t) (hr : s.thread.mRunning = false)
    (ha : ¬a.IsRun) : t.thread.mRunning = false := by
  rcases step_cases hstep with ⟨c, created, rfl⟩ | ⟨k, b, rfl⟩ | hcaller
  · exact absurd trivial ha
  · rcases eq_or_ne b .exit with rfl | hb
    · obtain ⟨-, rfl⟩ := hstep
      exact hr
    · obtain ⟨j, hj⟩ := h.active_of_byChild hstep hb
      exact absurd hj (h.not_active hr)
  · obtain ⟨ids, pending, waiting, es, rfl, -⟩ := hcaller
    exact hr

/-- A wait returns when nothing runs, with `mStatus` as it is then. -/
theorem step_waited (hstep : Step s a t) (hlog : t.log = s.log ++ [.waited c o status]) :
    s.thread.mRunning = false ∧ t.thread.mRunning = false ∧ status = s.thread.mStatus := by
  rcases step_cases hstep with ⟨c, created, rfl⟩ | ⟨k, b, rfl⟩ | hcaller
  · rcases step_run hstep with ⟨-, rfl⟩ | ⟨-, rfl⟩ | ⟨-, i, -, -, rfl⟩
    · simp at hlog
    · simp [record] at hlog
    · simp [goto] at hlog
  · rcases b.close_or_exit_or with rfl | rfl | ⟨hclose, hexit⟩
    · obtain ⟨result, hpc, ⟨-, rfl⟩ | ⟨-, -, rfl⟩⟩ := step_close hstep
      · simp [record, goto] at hlog
      · simp [record, goto] at hlog
    · obtain ⟨-, rfl⟩ := hstep
      simp [exec, child] at hlog
    · obtain ⟨pc, pc', status, es, hm, -, rfl⟩ := step_moves hstep hclose hexit
      cases hm <;> simp at hlog
  · obtain ⟨ids, pending, waiting, es, rfl, -, hes⟩ := hcaller
    rw [List.append_cancel_left hlog] at hes
    obtain ⟨_, _, he, hr⟩ := hes _ (List.mem_singleton_self _)
    cases he
    exact ⟨hr, hr, rfl⟩

/-- When a `join` or `requestExitAndWait` leaves its wait loop no child is active, and from then on,
    as long as nobody calls `run`, none is, none is in a callback and none does anything. -/
theorem quiescent_after_wait {tr₁ tr₂ : List (Taken ThreadSys ThreadAct)}
    {x : Taken ThreadSys ThreadAct} (hrun : Runs (tr₁ ++ x :: tr₂) s)
    (hx : x.post.log = x.pre.log ++ [.waited c o status]) (hno : ∀ y ∈ tr₂, ¬y.act.IsRun) :
    (∀ k, ¬x.pre.Active k) ∧ (∀ k, ¬s.Active k) ∧
      (∀ k, s.pc k ≠ some .inReadyToRun ∧ s.pc k ≠ some .inThreadLoop) ∧
      ∀ y ∈ tr₂, ¬y.act.ByChild := by
  obtain ⟨hfirst, hwait, hrest⟩ := hrun.split
  obtain ⟨hpre, hpost, -⟩ := step_waited hwait hx
  have hlc := LifeCycle.of_run hfirst
  have hidle₀ : x.post.LifeCycle ∧ x.post.thread.mRunning = false := ⟨hlc.step hwait, hpost⟩
  have hkeep : ∀ y ∈ tr₂, Step y.pre y.act y.post →
      y.pre.LifeCycle ∧ y.pre.thread.mRunning = false →
      y.post.LifeCycle ∧ y.post.thread.mRunning = false :=
    fun y hy hstep ⟨h, hr⟩ => ⟨h.step hstep, h.step_idle hstep hr (hno y hy)⟩
  have hend := hrest.invariant (I := fun s => s.LifeCycle ∧ s.thread.mRunning = false) hidle₀ hkeep
  refine ⟨fun k => hlc.not_active hpre, fun k => hend.1.not_active hend.2, fun k => ⟨?_, ?_⟩, ?_⟩
  · intro hpc
    exact hend.1.not_active hend.2 ⟨_, hpc, nofun⟩
  · intro hpc
    exact hend.1.not_active hend.2 ⟨_, hpc, nofun⟩
  · intro y hy hchild
    obtain ⟨h, hr⟩ := hrest.invariant_pre
      (I := fun s => s.LifeCycle ∧ s.thread.mRunning = false) hidle₀ hkeep hy
    obtain ⟨k, hk⟩ := h.active_of_byChild (hrest.step_of_mem hy) hchild
    exact h.not_active hr hk

/-- A `join` after the end of the first run, and the child that then leaves. -/
theorem quiescent_after_join : ∃ s, (∃ tr, Runs tr s) ∧
    s.log = [.readyToRun 1, .readyToRunReturned 1 5, .ended 1 5, .waited (.other 0) none 5] ∧
    ∀ k, ¬s.Active k := by
  obtain ⟨tr, h₀, -⟩ := runs_firstRun
  have h₁ := runs_childSteps h₀ 1 [.callReadyToRun, .readyToRunReturns 5, .readStatus, .close]
    (by decide)
  have h₂ := h₁.snoc (a := ThreadAct.call (.other 0) .join) ⟨⟨canCall_other rfl rfl, nofun⟩, rfl⟩
  have h₃ := h₂.snoc (a := ThreadAct.child 1 .exit) ⟨by decide, rfl⟩
  refine ⟨_, ⟨_, h₃⟩, rfl, ?_⟩
  rw [List.append_assoc] at h₃
  exact (quiescent_after_wait h₃ rfl (List.forall_mem_singleton.mpr nofun)).2.1

end ThreadSys

end ThreadManager
