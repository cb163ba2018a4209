import ThreadManager.Schemes.Transition
import ThreadManager.Thread.PolicyCalls

/-! Runs of calls of `set_sched_policy` and `get_sched_policy`.

    Between the calls anything may happen to the threads: another process moves one, one exits, a new
    one has its id. What is kept is that the two descriptors, which are opened once, stand for the two
    groups. So a policy that was accepted is what is read back, as long as nobody else moves the thread;
    and of a call that was not accepted nothing is left but `errno`. -/

namespace ThreadManager
open Schemes

namespace PolicySys

/-- A call of one of the two, with its result; or something done by others: a thread begins, is moved
    or exits, and `errno` is set. -/
inductive PolicyAct where
  | set (env : Cpuctl) (self tid policy : ℤ) (refused : Option ℤ) (rc : ℤ)
  | get (env : Cpuctl) (self tid : ℤ) (result : ℤ × Option ℤ)
  | thread (tid : ℤ) (k : Option KernelThread)
  | error (errno : ℤ)

/-- The thread that is not as it was. -/
def PolicyAct.changes (haveGettid : Bool) : PolicyAct → Option ℤ
  | .set _ self tid _ _ _ => some (getTid haveGettid self tid)
  | .get _ _ _ _ => none
  | .thread tid _ => some tid
  | .error _ => none

/-- A step; thread ids are positive and an `int`. -/
def Step (haveGettid : Bool) (s : PolicySys) (a : PolicyAct) (t : PolicySys) : Prop :=
  match a with
  | .set env self tid policy refused rc =>
    (0 < getTid haveGettid self tid ∧ getTid haveGettid self tid < 2 ^ 31) ∧
    Completes (fun n => s.setSchedPolicy haveGettid n env self tid policy refused) (rc, t)
  | .get env self tid result =>
    Completes (fun n => s.getSchedPolicy haveGettid n env self tid) (result, t)
  | .thread tid k => t = { s with threads := Function.update s.threads tid k }
  | .error errno => t = { s with errno }

/-- Nothing stands in the way of a policy: it has a descriptor, where one is needed, there is the
    thread, and the kernel does not refuse. -/
structure Accepts (s : PolicySys) (tid policy : ℤ) (refused : Option ℤ) : Prop where
  fd : s.statics.sysSupportsSchedgroups = 0 ∨ 0 ≤ s.cgroupFd policy
  thread : s.threads tid ≠ none
  allowed : refused = none

variable {haveGettid : Bool} {s t : PolicySys} {env : Cpuctl} {n : ℕ} {self tid policy rc : ℤ}
  {refused : Option ℤ}

/-! ### One step -/

theorem setNow_accepts (h : s.Accepts tid policy refused) : s.setNow tid policy refused =
    (0, { s with
      threads := Function.update s.threads tid
        ((s.threads tid).map fun k => k.placed s.statics.sysSupportsSchedgroups policy) }) := by
  obtain ⟨hfd, hthread, rfl⟩ := h
  obtain ⟨k, hk⟩ := Option.ne_none_iff_exists'.mp hthread
  have hneg : ¬(s.statics.sysSupportsSchedgroups ≠ 0 ∧ s.cgroupFd policy < 0) := by
    rintro ⟨hsup, hlt⟩
    rcases hfd with hfd | hfd
    · exact hsup hfd
    · omega
  simp only [setNow, if_neg hneg, hk, Option.map_some]

theorem setNow_refuses (h : ¬s.Accepts tid policy refused) : ∃ e, s.setNow tid policy refused =
    (failureStatus s.statics.sysSupportsSchedgroups e, { s with errno := e }) := by
  unfold setNow
  split
  case isTrue => exact ⟨s.errno, rfl⟩
  case isFalse hfd =>
    cases hthread : s.threads tid with
    | none => exact ⟨esrch, rfl⟩
    | some k =>
      cases refused with
      | some e => exact ⟨e, rfl⟩
      | none =>
        refine absurd ⟨?_, by simp [hthread], rfl⟩ h
        rw [not_and_or, not_not, not_lt] at hfd
        exact hfd

theorem Opened.set (h : s.Opened) (hstep : Step haveGettid s (.set env self tid policy refused rc) t) :
    (s.pthreadOnce env).setNow (getTid haveGettid self tid) (mapDefault policy) refused = (rc, t) := by
  obtain ⟨⟨hpos, hint⟩, hrun⟩ := hstep
  exact setSchedPolicy_stable.completes_unique ⟨11, setSchedPolicy_eq h hpos hint (by decide)⟩ hrun

/-- The same statics and files. -/
structure SameFiles (s t : PolicySys) : Prop where
  statics : t.statics = s.statics
  files : t.files = s.files

theorem SameFiles.opened (h : s.SameFiles t) (hopened : s.Opened) : t.Opened := by
  refine ⟨?_, ?_⟩
  · rw [h.statics, h.files]
    exact hopened.fg
  · rw [h.statics, h.files]
    exact hopened.bg

theorem setNow_sameFiles (s : PolicySys) (tid policy : ℤ) (refused : Option ℤ) :
    s.SameFiles (s.setNow tid policy refused).2 := by
  by_cases h : s.Accepts tid policy refused
  · rw [setNow_accepts h]
    exact ⟨rfl, rfl⟩
  · obtain ⟨e, he⟩ := setNow_refuses h
    rw [he]
    exact ⟨rfl, rfl⟩

theorem setNow_of_ne {j : ℤ} (s : PolicySys) (policy : ℤ) (refused : Option ℤ) (hj : j ≠ tid) :
    (s.setNow tid policy refused).2.threads j = s.threads j := by
  by_cases h : s.Accepts tid policy refused
  · rw [setNow_accepts h]
    exact Function.update_of_ne hj _ _
  · obtain ⟨e, he⟩ := setNow_refuses h
    rw [he]

theorem accepts_setNow (s : PolicySys) (tid policy : ℤ) (refused : Option ℤ) :
    (s.setNow tid policy refused).2.Accepts tid policy refused ↔
    s.Accepts tid policy refused := by
  by_cases h : s.Accepts tid policy refused
  · rw [setNow_accepts h]
    refine iff_of_true ⟨h.fd, ?_, h.allowed⟩ h
    simpa using h.thread
  · obtain ⟨e, he⟩ := setNow_refuses h
    rw [he]
    exact iff_of_false (fun hacc => h ⟨hacc.fd, hacc.thread, hacc.allowed⟩) h

/-- No thread is changed either. -/
structure SameTables (s t : PolicySys) : Prop extends SameFiles s t where
  threads : t.threads = s.threads

theorem sameTables_reportPolicy (s : PolicySys) (o : Option SchedPolicy) :
    s.SameTables (s.reportPolicy o).2 := by
  cases o <;> exact ⟨⟨rfl, rfl⟩, rfl⟩

/-- A `get` changes no more than `errno`, once the files are opened. -/
theorem getSchedPolicy_sameTables {r : ℤ × Option ℤ}
    (h : s.getSchedPolicy haveGettid n env self tid = .done (r, t)) :
    (s.pthreadOnce env).SameTables t := by
  simp only [getSchedPolicy] at h
  generalize s.pthreadOnce env = s at h
  have hreport : ∀ o, s.reportPolicy o = (r, t) → s.SameTables t := by
    intro o ho
    have hsame := sameTables_reportPolicy s o
    rwa [ho] at hsame
  split at h
  case isTrue =>
    obtain ⟨⟨rc, grpBuf⟩, -, h⟩ := Outcome.bind_eq_done.mp h
    split at h
    case isTrue =>
      cases h
      exact ⟨⟨rfl, rfl⟩, rfl⟩
    case isFalse =>
      obtain ⟨o, -, h⟩ := Outcome.bind_eq_done.mp h
      exact hreport o (Outcome.done.inj h)
  case isFalse =>
    cases hthread : s.threads (kernelTid self (getTid haveGettid self tid)) with
    | none =>
      simp only [schedGetscheduler, hthread, if_pos (show (-1 : ℤ) < 0 by decide)] at h
      cases h
      exact ⟨⟨rfl, rfl⟩, rfl⟩
    | some k =>
      simp only [schedGetscheduler, hthread, if_neg (show ¬(k.scheduler : ℤ) < 0 by omega)] at h
      split at h
      · exact hreport _ (Outcome.done.inj h)
      · split at h <;> exact hreport _ (Outcome.done.inj h)

theorem Opened.set_sameFiles (h : s.Opened)
    (hstep : Step haveGettid s (.set env self tid policy refused rc) t) :
    (s.pthreadOnce env).SameFiles t := by
  have hsame := setNow_sameFiles (s.pthreadOnce env) (getTid haveGettid self tid) (mapDefault policy)
    refused
  rwa [h.set hstep] at hsame

theorem Opened.set_cases (h : s.Opened)
    (hstep : Step haveGettid s (.set env self tid policy refused rc) t) :
    (t.Accepts (getTid haveGettid self tid) (mapDefault policy) refused ∧ rc = 0 ∧
      t.threads = Function.update s.threads (getTid haveGettid self tid)
        ((s.threads (getTid haveGettid self tid)).map
        fun k => k.placed t.statics.sysSupportsSchedgroups (mapDefault policy))) ∨
    (¬t.Accepts (getTid haveGettid self tid) (mapDefault policy) refused ∧ t.threads = s.threads ∧
      rc = failureStatus t.statics.sysSupportsSchedgroups t.errno) := by
  have hnow := h.set hstep
  have hiff := accepts_setNow (s.pthreadOnce env) (getTid haveGettid self tid) (mapDefault policy)
    refused
  rw [hnow] at hiff
  by_cases hacc : (s.pthreadOnce env).Accepts (getTid haveGettid self tid) (mapDefault policy) refused
  · left
    rw [setNow_accepts hacc, Prod.mk.injEq] at hnow
    obtain ⟨rfl, rfl⟩ := hnow
    exact ⟨hiff.mpr hacc, rfl, by simp only [pthreadOnce_threads]⟩
  · right
    obtain ⟨e, he⟩ := setNow_refuses hacc
    rw [he, Prod.mk.injEq] at hnow
    obtain ⟨rfl, rfl⟩ := hnow
    exact ⟨hiff.not.mpr hacc, pthreadOnce_threads env, rfl⟩

/-- The files are opened once, and the descriptors stand for their groups from then on. -/
theorem Step.opened {a : PolicyAct} (hstep : Step haveGettid s a t) (h : s.Opened) : t.Opened := by
  cases a with
  | set env self tid policy refused rc =>
    exact (h.set_sameFiles hstep).opened (h.pthreadOnce env)
  | get env self tid result =>
    obtain ⟨n, hn⟩ := hstep
    exact (getSchedPolicy_sameTables hn).opened (h.pthreadOnce env)
  | thread tid k =>
    obtain rfl := hstep
    exact ⟨h.fg, h.bg⟩
  | error e =>
    obtain rfl := hstep
    exact ⟨h.fg, h.bg⟩

/-- Once `the_once` has run, the statics stay as they are. -/
theorem Step.statics {a : PolicyAct} (hstep : Step haveGettid s a t) (h : s.Opened)
    (honce : s.statics.theOnce = true) : t.statics = s.statics := by
  cases a with
  | set env self tid policy refused rc =>
    have hsame := h.set_sameFiles hstep
    rw [pthreadOnce_of_done honce] at hsame
    exact hsame.statics
  | get env self tid result =>
    obtain ⟨n, hn⟩ := hstep
    have hsame := getSchedPolicy_sameTables hn
    rw [pthreadOnce_of_done honce] at hsame
    exact hsame.statics
  | thread tid k =>
    obtain rfl := hstep
    rfl
  | error e =>
    obtain rfl := hstep
    rfl

/-- A step leaves the other threads alone. -/
theorem Step.other {a : PolicyAct} (hstep : Step haveGettid s a t) (h : s.Opened) {j : ℤ}
    (hj : a.changes haveGettid ≠ some j) : t.threads j = s.threads j := by
  cases a with
  | set env self tid policy refused rc =>
    have hne : j ≠ getTid haveGettid self tid := fun heq => hj (congrArg some heq.symm)
    have hnow := setNow_of_ne (s.pthreadOnce env) (mapDefault policy) refused hne
    rwa [h.set hstep, pthreadOnce_threads] at hnow
  | get env self tid result =>
    obtain ⟨n, hn⟩ := hstep
    rw [(getSchedPolicy_sameTables hn).threads, pthreadOnce_threads]
  | thread tid k =>
    obtain rfl := hstep
    exact Function.update_of_ne (fun heq => hj (congrArg some heq.symm)) _ _
  | error e =>
    obtain rfl := hstep
    rfl

/-! ### Whole runs -/

variable {threads : ℤ → Option KernelThread} {e : ℤ} {tr tr₁ tr₂ : List (Taken PolicySys PolicyAct)}
  {x : Taken PolicySys PolicyAct}

theorem opened_start : (start threads e).Opened := ⟨Or.inl rfl, Or.inl rfl⟩

theorem Opened.run (h : s.Opened) (hrun : Run (Step haveGettid) s tr t) : t.Opened :=
  hrun.invariant h fun _ _ hstep hpre => hstep.opened hpre

/-- A call that is accepted returns 0; one that is not changes no thread, and its result is made of
    `errno`. -/
theorem set_result (hrun : Run (Step haveGettid) (start threads e) tr s) (hx : x ∈ tr)
    (hset : x.act = .set env self tid policy refused rc) :
    (x.post.Accepts (getTid haveGettid self tid) (mapDefault policy) refused ∧ rc = 0 ∧
      x.post.threads = Function.update x.pre.threads (getTid haveGettid self tid)
        ((x.pre.threads (getTid haveGettid self tid)).map fun k =>
          k.placed x.post.statics.sysSupportsSchedgroups (mapDefault policy))) ∨
    (¬x.post.Accepts (getTid haveGettid self tid) (mapDefault policy) refused ∧
      x.post.threads = x.pre.threads ∧
      rc = failureStatus x.post.statics.sysSupportsSchedgroups x.post.errno) := by
  obtain ⟨hstep, tr', hrun', -⟩ := hrun.before hx
  rw [hset] at hstep
  exact (opened_start.run hrun').set_cases hstep

theorem step_set (env : Cpuctl) (policy : ℤ) (refused : Option ℤ) (h : s.Opened)
    (hpos : 0 < getTid haveGettid self tid) (hint : getTid haveGettid self tid < 2 ^ 31) :
    Step haveGettid s (.set env self tid policy refused
        ((s.pthreadOnce env).setNow (getTid haveGettid self tid) (mapDefault policy) refused).1)
      ((s.pthreadOnce env).setNow (getTid haveGettid self tid) (mapDefault policy) refused).2 :=
  ⟨⟨hpos, hint⟩, 11, setSchedPolicy_eq h hpos hint (by decide)⟩

theorem accepts_oneThread (hpolicy : 0 ≤ (oneThread.pthreadOnce cpuctl).cgroupFd policy) :
    (oneThread.pthreadOnce cpuctl).Accepts 7 policy none := by
  refine ⟨Or.inr hpolicy, ?_, rfl⟩
  rw [pthreadOnce_threads]
  simp [oneThread, start]

/-- The thread 7 asks for itself to be in the background, and then for the system policy, which is
    refused with the `errno` of before. -/
theorem set_result_run : ∃ tr s, Run (Step true) oneThread tr s ∧ ∀ x ∈ tr, ∀ policy rc,
    x.act = .set cpuctl 7 0 policy none rc →
    (x.post.Accepts 7 (mapDefault policy) none ∧ rc = 0 ∧
      x.post.threads = Function.update x.pre.threads 7 ((x.pre.threads 7).map fun k =>
        k.placed x.post.statics.sysSupportsSchedgroups (mapDefault policy))) ∨
    (¬x.post.Accepts 7 (mapDefault policy) none ∧ x.post.threads = x.pre.threads ∧
      rc = failureStatus x.post.statics.sysSupportsSchedgroups x.post.errno) := by
  have hopened : oneThread.Opened := opened_start
  have hset := step_set cpuctl 0 none hopened (show 0 < getTid true 7 0 by decide) (by decide)
  have hsystem := step_set cpuctl 2 none (hset.opened hopened) (show 0 < getTid true 7 0 by decide)
    (by decide)
  have hrun := (Run.nil.snoc hset).snoc hsystem
  exact ⟨_, _, hrun, fun x hx _ _ hact => set_result hrun hx hact⟩

/-- After a call that is accepted, and with nothing done to the thread by others since, the policy is
    read back: background for background, foreground for the others. Where it is read from the file
    of the thread, that one must fit. -/
theorem get_after_set {self' tid' : ℤ} {env' : Cpuctl}
    (hrun : Run (Step haveGettid) (start threads e) (tr₁ ++ x :: tr₂) s)
    (hset : x.act = .set env self tid policy refused rc)
    (hacc : x.post.Accepts (getTid haveGettid self tid) (mapDefault policy) refused)
    (hquiet : ∀ y ∈ tr₂, y.act.changes haveGettid ≠ some (getTid haveGettid self tid))
    (hget : getTid haveGettid self' tid' = getTid haveGettid self tid)
    (hfits : s.statics.sysSupportsSchedgroups ≠ 0 → ∀ k,
      s.threads (getTid haveGettid self tid) = some k → k.Fits) :
    Completes (fun n => s.getSchedPolicy haveGettid n env' self' tid')
      ((0, some (readBack (mapDefault policy)).code), s) := by
  obtain ⟨hrun₁, hstep, hrun₂⟩ := hrun.split
  rw [hset] at hstep
  have hopened := opened_start.run hrun₁
  have honce : x.post.statics.theOnce = true := by
    rw [(hopened.set_sameFiles hstep).statics, pthreadOnce_theOnce]
  obtain ⟨k, hk⟩ := Option.ne_none_iff_exists'.mp hacc.thread
  have hpolicy :
      k.policy x.post.statics.sysSupportsSchedgroups = some (readBack (mapDefault policy)) := by
    rcases hopened.set_cases hstep with ⟨-, -, hthreads⟩ | ⟨hno, -⟩
    · rw [hthreads, Function.update_self] at hk
      obtain ⟨k, -, rfl⟩ := Option.map_eq_some_iff.mp hk
      exact k.policy_placed _ _
    · exact absurd hacc hno
  -- the statics and the thread stay as the call has left them
  have hkeep : s.Opened ∧ s.statics = x.post.statics ∧
      s.threads (getTid haveGettid self tid) = x.post.threads (getTid haveGettid self tid) := by
    refine hrun₂.invariant (I := fun u => u.Opened ∧ u.statics = x.post.statics ∧
      u.threads (getTid haveGettid self tid) = x.post.threads (getTid haveGettid self tid))
      ⟨Step.opened hstep hopened, rfl, rfl⟩ ?_
    rintro y hy hstep' ⟨hpre, hstatics, hthread⟩
    refine ⟨hstep'.opened hpre, ?_, ?_⟩
    · rw [hstep'.statics hpre (by rw [hstatics, honce]), hstatics]
    · rw [hstep'.other hpre (hquiet y hy), hthread]
  obtain ⟨-, hstatics, hthread⟩ := hkeep
  have honce' : s.pthreadOnce env' = s := pthreadOnce_of_done (by rw [hstatics, honce])
  have hthread' : s.threads (getTid haveGettid self' tid') = some k := by rw [hget, hthread, hk]
  have hrun' := getSchedPolicy_eq env' (by rw [hget]; exact hstep.1.1) hthread'
    (by rw [honce']; exact fun hsup => hfits hsup k (hget ▸ hthread')) (Nat.lt_succ_self _)
  refine ⟨_, hrun'.trans ?_⟩
  rw [honce', hstatics, hpolicy]
  rfl

/-- The thread 7 puts itself into the background, and another one sees it there. -/
theorem get_after_set_run : ∃ tr s, Run (Step true) oneThread tr s ∧ tr.length = 2 ∧
    Completes (fun n => s.getSchedPolicy true n cpuctl 8 7) ((0, some 0), s) := by
  have hopened : oneThread.Opened := opened_start
  have hset := step_set cpuctl 0 none hopened (show 0 < getTid true 7 0 by decide) (by decide)
  have herror : ∀ s : PolicySys, Step true s (.error 5) { s with errno := 5 } := fun _ => rfl
  have hrun := (Run.nil.snoc hset).snoc (herror _)
  refine ⟨_, _, hrun, rfl, ?_⟩
  refine get_after_set (show Run (Step true) oneThread ([] ++ _ :: [_]) _ from hrun) rfl ?_ ?_ rfl ?_
  · exact (accepts_setNow _ _ _ _).mpr (accepts_oneThread (by decide))
  · intro y hy
    obtain rfl := List.mem_singleton.mp hy
    exact Option.some_ne_none _ |>.symm
  · rintro - k hk
    obtain rfl := Option.some.inj hk
    exact ⟨appsThread_fits.above, appsThread_fits.hierarchy⟩

end PolicySys

end ThreadManager
