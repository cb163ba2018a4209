import ThreadManager.Thread.SchedPolicy

/-! What a call of `set_sched_policy` or of `get_sched_policy` does.

    `set_sched_policy` either puts the thread where the policy says and returns 0, or does nothing, and
    then its result is made of `errno`. `get_sched_policy` goes by the path that `getSchedulerGroup`
    copies, which is not the whole path if that has a colon. -/

namespace ThreadManager
open Schemes

/-- The group behind the descriptor for a policy. -/
def groupOf (policy : ℤ) : GroupPath :=
  if policy = SchedPolicy.background.code then .bg else .fg

/-- The thread where a policy puts it: in a group, or, if there are none, under a scheduler. -/
def KernelThread.placed (t : KernelThread) (sysSupportsSchedgroups policy : ℤ) : KernelThread :=
  if sysSupportsSchedgroups ≠ 0 then { t with group := groupOf policy }
  else { t with scheduler := if policy = SchedPolicy.background.code then schedBatch else schedNormal }

/-- The policy of a thread. -/
def KernelThread.policy (t : KernelThread) (sysSupportsSchedgroups : ℤ) : Option SchedPolicy :=
  if sysSupportsSchedgroups ≠ 0 then policyOf (shownPath t.group.val)
  else schedulerPolicy t.scheduler

/-- What `set_sched_policy` returns when it has done nothing. -/
def failureStatus (sysSupportsSchedgroups errno : ℤ) : ℤ :=
  if sysSupportsSchedgroups ≠ 0 ∧ errno ≠ esrch ∧ errno ≠ enoent then -errno else 0

/-- The policy that is read of a thread for which one was set. -/
def readBack (policy : ℤ) : SchedPolicy :=
  if policy = SchedPolicy.background.code then .background else .foreground

/-- The path of the group that is reported as a policy; some policies are never reported. -/
def SchedPolicy.groupName : SchedPolicy → Option (List Byte)
  | .background => some appsBg
  | .foreground => some apps
  | .system => some []
  | .audioApp => none
  | .audioSys => none

theorem SchedPolicy.groupName_clean {name : List Byte} (p : SchedPolicy) (h : p.groupName = some name) :
    colon ∉ name := by
  cases p <;> cases h <;> decide

theorem policyOf_eq_some_iff {name : List Byte} {p : SchedPolicy} :
    policyOf name = some p ↔ p.groupName = some name := by
  constructor
  · intro h
    unfold policyOf at h
    split at h
    case isTrue hnil =>
      cases h
      rw [hnil]
      rfl
    case isFalse =>
      split at h
      case isTrue hbg =>
        cases h
        rw [hbg]
        rfl
      case isFalse =>
        split at h
        case isTrue hfg =>
          cases h
          rw [hfg]
          rfl
        case isFalse => cases h
  · intro h
    cases p <;> cases h <;> rfl

theorem shownPath_of_notMem {path : List Byte} (h : colon ∉ path) : shownPath path = path := by
  rw [shownPath, idxOf_notMem h]
  exact List.take_length

theorem shownPath_append {x y : List Byte} (h : colon ∉ x) :
    shownPath (x ++ colon :: y) = x.dropLast := by
  have hidx : (x ++ colon :: y ++ [newline]).idxOf colon = x.length := by
    rw [List.append_assoc, List.idxOf_append_of_notMem h, List.cons_append, List.idxOf_cons_self,
      add_zero]
  rw [shownPath, hidx, List.take_append_of_le_length (Nat.sub_le _ _), List.dropLast_eq_take]

theorem shownPath_eq_iff {path name : List Byte} (hname : colon ∉ name) :
    shownPath path = name ↔ path = name ∨
      (∃ b y, b ≠ colon ∧ path = name ++ b :: colon :: y) ∨ name = [] ∧ ∃ y, path = colon :: y := by
  constructor
  · rintro rfl
    rcases sep_cases colon path with ⟨hno, -⟩ | ⟨x, y, rfl, hno, -⟩
    · exact Or.inl (shownPath_of_notMem hno).symm
    · rw [shownPath_append hno]
      rcases List.eq_nil_or_concat x with rfl | ⟨v, b, rfl⟩
      · exact Or.inr (Or.inr ⟨rfl, y, rfl⟩)
      · rw [List.concat_eq_append] at hno ⊢
        refine Or.inr (Or.inl ⟨b, y, ?_, ?_⟩)
        · rintro rfl
          exact hno (List.mem_append_right _ (List.mem_singleton_self _))
        · rw [List.dropLast_concat, List.append_assoc, List.singleton_append]
  · rintro (rfl | ⟨b, y, hb, rfl⟩ | ⟨rfl, y, rfl⟩)
    · exact shownPath_of_notMem hname
    · have hno : colon ∉ name ++ [b] := by
        simp only [List.mem_append, List.mem_singleton, not_or]
        exact ⟨hname, hb.symm⟩
      rw [List.append_cons, shownPath_append hno, List.dropLast_concat]
    · exact shownPath_append (x := []) hname

theorem KernelThread.policy_placed (t : KernelThread) (sup p : ℤ) :
    (t.placed sup p).policy sup = some (readBack p) := by
  unfold placed policy groupOf readBack
  by_cases hsup : sup ≠ 0
  · simp only [if_pos hsup]
    split
    · rw [shownPath_of_notMem (by decide)]
      rfl
    · rw [shownPath_of_notMem (by decide)]
      rfl
  · simp only [if_neg hsup]
    split <;> rfl

namespace PolicySys

/-- The thread is where its policy puts it, unless there is no descriptor for the policy, no such
    thread, or the kernel refuses. -/
def setNow (s : PolicySys) (tid policy : ℤ) (refused : Option ℤ) : ℤ × PolicySys :=
  if s.statics.sysSupportsSchedgroups ≠ 0 ∧ s.cgroupFd policy < 0 then
    (failureStatus s.statics.sysSupportsSchedgroups s.errno, s)
  else match s.threads tid, refused with
    | none, _ => (failureStatus s.statics.sysSupportsSchedgroups esrch, { s with errno := esrch })
    | some _, some errno =>
      (failureStatus s.statics.sysSupportsSchedgroups errno, { s with errno })
    | some t, none => (0, { s with
        threads := Function.update s.threads tid
          (some (t.placed s.statics.sysSupportsSchedgroups policy)) })

/-- A descriptor that is not -1 stands for its group. -/
structure Opened (s : PolicySys) : Prop where
  fg : s.statics.fgCgroupFd = -1 ∨ s.files s.statics.fgCgroupFd = some .fg
  bg : s.statics.bgCgroupFd = -1 ∨ s.files s.statics.bgCgroupFd = some .bg

variable {haveGettid : Bool} {s : PolicySys} {env : Cpuctl} {n : ℕ} {self tid policy : ℤ}
  {refused : Option ℤ}

/-! ### `pthread_once` -/

@[simp] theorem pthreadOnce_threads (env : Cpuctl) : (s.pthreadOnce env).threads = s.threads := by
  unfold pthreadOnce sysInitialize
  split
  · rfl
  · cases env.access <;> cases env.fgTasks <;> cases env.bgTasks <;> rfl

@[simp] theorem pthreadOnce_theOnce : (s.pthreadOnce env).statics.theOnce = true := by
  unfold pthreadOnce
  split
  case isTrue h => exact h
  case isFalse => rfl

theorem pthreadOnce_of_done (h : s.statics.theOnce = true) : s.pthreadOnce env = s := if_pos h

theorem Opened.sysInitialize (h : s.Opened) (env : Cpuctl) : (s.sysInitialize env).Opened := by
  unfold PolicySys.sysInitialize
  cases env.access with
  | error e => exact ⟨h.fg, h.bg⟩
  | ok =>
    cases hfg : env.fgTasks with
    | error e =>
      cases env.bgTasks with
      | error e => exact ⟨Or.inl rfl, Or.inl rfl⟩
      | ok fd => exact ⟨Or.inl rfl, Or.inr (Function.update_self _ _ _)⟩
    | ok fd =>
      cases hbg : env.bgTasks with
      | error e => exact ⟨Or.inr (Function.update_self _ _ _), Or.inl rfl⟩
      | ok fd' =>
        refine ⟨Or.inr ?_, Or.inr (Function.update_self _ _ _)⟩
        have hne : (fd : ℤ) ≠ fd' := by
          intro heq
          rw [Nat.cast_inj] at heq
          exact env.distinct fd hfg (heq ▸ hbg)
        refine (Function.update_of_ne hne _ _).trans ?_
        exact Function.update_self _ _ _

theorem Opened.pthreadOnce (h : s.Opened) (env : Cpuctl) : (s.pthreadOnce env).Opened := by
  unfold PolicySys.pthreadOnce
  split
  · exact h
  · have hinit := h.sysInitialize env
    exact ⟨hinit.fg, hinit.bg⟩

/-! ### One call -/

theorem Opened.file (h : s.Opened) (hfd : ¬s.cgroupFd policy < 0) :
    s.files (s.cgroupFd policy) = some (groupOf policy) := by
  unfold cgroupFd groupOf at *
  split at hfd
  case isTrue hbg =>
    rw [if_pos hbg, if_pos hbg]
    exact h.bg.resolve_left (by omega)
  case isFalse hbg =>
    rw [if_neg hbg, if_neg hbg]
    split at hfd
    case isTrue hfg =>
      rw [if_pos hfg]
      exact h.fg.resolve_left (by omega)
    case isFalse => exact absurd hfd (by decide)

theorem tidText_stable : Stable (fun n => tidText n tid) := by
  refine (Stable.const _).bind fun text => ?_
  exact (loop_stable _ _).bind fun r => Stable.const _

/-- The call shows no more than one end. -/
theorem setSchedPolicy_stable :
    Stable (fun n => s.setSchedPolicy haveGettid n env self tid policy refused) := by
  unfold setSchedPolicy
  by_cases hsup : (s.pthreadOnce env).statics.sysSupportsSchedgroups ≠ 0
  · simp only [if_pos hsup]
    refine Stable.bind ?_ fun r => Stable.const _
    unfold addTidToCgroup
    by_cases hfd : (s.pthreadOnce env).cgroupFd (mapDefault policy) < 0
    · simp only [if_pos hfd]
      exact Stable.const _
    · simp only [if_neg hfd]
      exact tidText_stable.bind fun text => Stable.const _
  · simp only [if_neg hsup]
    exact Stable.const _

section Write

variable {k : KernelThread} {e : ℤ}

/-- With a descriptor, the digits are written, and a thread that is gone is no error. -/
theorem addTidToCgroup_eq (hfd : ¬s.cgroupFd policy < 0) (hpos : 0 < tid) (hint : tid < 2 ^ 31)
    (hn : 10 < n) : s.addTidToCgroup n tid policy refused =
      let r := s.write (s.cgroupFd policy) (decimal tid.toNat) refused
      .done (if r.1 < 0 then if r.2.errno = esrch then 0 else -1 else 0, r.2) := by
  have hlen : (decimal tid.toNat).length ≤ 10 := length_decimal_le (by omega)
  simp only [addTidToCgroup, if_neg hfd, tidText_eq hpos (show tid < 10 ^ 21 by omega)
    (show (decimal tid.toNat).length < n by omega), Outcome.done_bind, Outcome.pure_eq]
  split
  · split <;> rfl
  · rfl

variable (hopened : s.Opened) (hfd : ¬s.cgroupFd policy < 0) (hpos : 0 < tid)
include hopened hfd hpos

theorem write_gone (hthread : s.threads tid = none) :
    s.write (s.cgroupFd policy) (decimal tid.toNat) refused = (-1, { s with errno := esrch }) := by
  simp only [write, hopened.file hfd, parseDecimal_decimal (show 0 < tid.toNat by omega),
    Int.toNat_of_nonneg hpos.le, hthread]

theorem write_refused (hthread : s.threads tid = some k) :
    s.write (s.cgroupFd policy) (decimal tid.toNat) (some e) = (-1, { s with errno := e }) := by
  simp only [write, hopened.file hfd, parseDecimal_decimal (show 0 < tid.toNat by omega),
    Int.toNat_of_nonneg hpos.le, hthread]

theorem write_moved (hthread : s.threads tid = some k) :
    s.write (s.cgroupFd policy) (decimal tid.toNat) none = (((decimal tid.toNat).length : ℤ), { s with
      threads := Function.update s.threads tid (some { k with group := groupOf policy }) }) := by
  simp only [write, hopened.file hfd, parseDecimal_decimal (show 0 < tid.toNat by omega),
    Int.toNat_of_nonneg hpos.le, hthread]

end Write

/-- The result of `set_sched_policy` for a result of `add_tid_to_cgroup` and the `errno` after it. -/
theorem failureStatus_eq {sup r e : ℤ} (hsup : sup ≠ 0) (hr : r ≠ 0 ∨ e = esrch) :
    failureStatus sup e = if r ≠ 0 ∧ e ≠ esrch ∧ e ≠ enoent then -e else 0 := by
  unfold failureStatus
  rcases hr with hr | rfl
  · simp [hsup, hr]
  · simp

/-- What a call does. -/
theorem setSchedPolicy_eq (hopened : s.Opened) (hpos : 0 < getTid haveGettid self tid)
    (hint : getTid haveGettid self tid < 2 ^ 31) (hn : 10 < n) :
    s.setSchedPolicy haveGettid n env self tid policy refused =
      .done ((s.pthreadOnce env).setNow (getTid haveGettid self tid) (mapDefault policy) refused) := by
  have hopened := hopened.pthreadOnce env
  simp only [setSchedPolicy, setNow]
  generalize s.pthreadOnce env = s at hopened
  generalize getTid haveGettid self tid = tid at hpos hint
  generalize mapDefault policy = policy
  have hkernel : kernelTid self tid = tid := if_neg hpos.ne'
  by_cases hsup : s.statics.sysSupportsSchedgroups ≠ 0
  · simp only [if_pos hsup]
    by_cases hfd : s.cgroupFd policy < 0
    · rw [if_pos ⟨hsup, hfd⟩, addTidToCgroup, if_pos hfd, failureStatus_eq (r := -1) hsup (by simp)]
      simp only [Outcome.pure_eq, Outcome.done_bind]
      split <;> rfl
    · rw [if_neg fun h => hfd h.2, addTidToCgroup_eq hfd hpos hint hn]
      simp only [Outcome.pure_eq, Outcome.done_bind]
      cases hthread : s.threads tid with
      | none =>
        rw [write_gone hopened hfd hpos hthread]
        simp [failureStatus]
      | some k =>
        cases refused with
        | none =>
          rw [write_moved hopened hfd hpos hthread]
          simp [KernelThread.placed, hsup]
        | some e =>
          rw [write_refused hopened hfd hpos hthread]
          by_cases he : e = esrch
          · simp [failureStatus, he]
          · have hstatus := failureStatus_eq (r := -1) (e := e) hsup (by simp)
            simp only [if_neg he, if_pos (show (-1 : ℤ) < 0 by decide), hstatus]
            split <;> rfl
  · have hfd : ¬(s.statics.sysSupportsSchedgroups ≠ 0 ∧ s.cgroupFd policy < 0) := fun h => hsup h.1
    rw [if_neg hsup, if_neg hfd]
    cases hthread : s.threads tid with
    | none => simp [schedSetscheduler, hkernel, hthread, failureStatus, hsup]
    | some k =>
      cases refused with
      | none =>
        simp only [schedSetscheduler, hkernel, hthread, KernelThread.placed, if_neg hsup]
        rfl
      | some e => simp [schedSetscheduler, hkernel, hthread, failureStatus, hsup]

/-- What a call does for a thread whose file is read right. -/
theorem getSchedPolicy_eq {k : KernelThread} (env : Cpuctl) (hpos : 0 < getTid haveGettid self tid)
    (hthread : s.threads (getTid haveGettid self tid) = some k)
    (hfits : (s.pthreadOnce env).statics.sysSupportsSchedgroups ≠ 0 → k.Fits)
    (hn : (pieces 254 254 (cgroupFile k.lines)).length < n) :
    s.getSchedPolicy haveGettid n env self tid = .done ((s.pthreadOnce env).reportPolicy
      (k.policy (s.pthreadOnce env).statics.sysSupportsSchedgroups)) := by
  rw [← pthreadOnce_threads env] at hthread
  simp only [getSchedPolicy, KernelThread.policy]
  generalize s.pthreadOnce env = s at hthread hfits
  generalize getTid haveGettid self tid = tid at hpos hthread
  by_cases hsup : s.statics.sysSupportsSchedgroups ≠ 0
  · have hproc : s.proc tid = some (cgroupFile k.lines) := by
      rw [proc, hthread, Option.map_some]
    obtain ⟨buf, hrun, hstr⟩ := getSchedulerGroup_thread (List.replicate grpBufSize none)
      (show 1 ≤ grpBufSize by decide) (by rw [List.length_replicate]) hproc (hfits hsup) hn
    rw [if_pos hsup, if_pos hsup, hrun, Outcome.done_bind, if_neg (lt_irrefl _), groupPolicy_str hstr,
      Outcome.done_bind, policyOf_shown (hfits hsup)]
    rfl
  · have hkernel : kernelTid self tid = tid := if_neg hpos.ne'
    have hneg : ¬(k.scheduler : ℤ) < 0 := by omega
    simp only [if_neg hsup, schedGetscheduler, hkernel, hthread, if_neg hneg, Nat.cast_inj,
      schedulerPolicy]
    split
    · rfl
    · split <;> rfl

theorem getSchedPolicy_stable : Stable (fun n => s.getSchedPolicy haveGettid n env self tid) := by
  unfold getSchedPolicy
  by_cases hsup : (s.pthreadOnce env).statics.sysSupportsSchedgroups ≠ 0
  · simp only [if_pos hsup]
    exact getSchedulerGroup_stable.bind fun r => Stable.const _
  · simp only [if_neg hsup]
    exact Stable.const _

theorem reportPolicy_eq_iff {o : Option SchedPolicy} {p : SchedPolicy} :
    s.reportPolicy o = ((0, some p.code), s) ↔ o = some p := by
  cases o with
  | none => simp [reportPolicy]
  | some q => cases p <;> cases q <;> simp [reportPolicy, SchedPolicy.code]

theorem two_clean : colon ∉ ascii ['2'] ∧ newline ∉ ascii ['2'] ∧ 0 ∉ ascii ['2'] := by decide

/-- A thread of the group `apps`. -/
def appsThread : KernelThread where
  above := []
  hierarchy := ascii ['2']
  group := .fg
  below := []
  scheduler := schedNormal
  above_ok := List.forall_mem_nil _
  hierarchy_ok := two_clean

theorem appsThread_fits : appsThread.Fits := ⟨by simp [appsThread], by decide⟩

/-- The files of the two groups, opened as 10 and 11. -/
def cpuctl : Cpuctl := ⟨.ok (), .ok 10, .ok 11, by simp⟩

/-- The thread 7, and nothing was called. -/
def oneThread : PolicySys := start (Function.update (fun _ => none) 7 (some appsThread)) 0

/-- The policy that is reported is that of the thread. -/
theorem getSchedPolicy_completes_iff {k : KernelThread} {p : SchedPolicy}
    (hpos : 0 < getTid haveGettid self tid)
    (hthread : s.threads (getTid haveGettid self tid) = some k)
    (hfits : (s.pthreadOnce env).statics.sysSupportsSchedgroups ≠ 0 → k.Fits) :
    Completes (fun n => s.getSchedPolicy haveGettid n env self tid)
        ((0, some p.code), s.pthreadOnce env) ↔
      k.policy (s.pthreadOnce env).statics.sysSupportsSchedgroups = some p := by
  have hrun := getSchedPolicy_eq env hpos hthread hfits (Nat.lt_succ_self _)
  rw [getSchedPolicy_stable.completes_iff (by rw [hrun]; simp), hrun, Outcome.done.injEq,
    reportPolicy_eq_iff]

/-- In a group, a policy is reported exactly if the path is that of its group, or goes on behind it with
    a byte and a colon, or is empty up to a colon. -/
theorem getSchedPolicy_reports_iff {k : KernelThread} {p : SchedPolicy}
    (hpos : 0 < getTid haveGettid self tid)
    (hthread : s.threads (getTid haveGettid self tid) = some k) (hfits : k.Fits)
    (hsup : (s.pthreadOnce env).statics.sysSupportsSchedgroups ≠ 0) :
    Completes (fun n => s.getSchedPolicy haveGettid n env self tid)
        ((0, some p.code), s.pthreadOnce env) ↔
      ∃ name, p.groupName = some name ∧ (k.group.val = name ∨
        (∃ b y, b ≠ colon ∧ k.group.val = name ++ b :: colon :: y) ∨
        name = [] ∧ ∃ y, k.group.val = colon :: y) := by
  rw [getSchedPolicy_completes_iff hpos hthread fun _ => hfits, KernelThread.policy, if_pos hsup,
    policyOf_eq_some_iff]
  constructor
  · intro hname
    exact ⟨_, hname, (shownPath_eq_iff (p.groupName_clean hname)).mp rfl⟩
  · rintro ⟨name, hname, hpath⟩
    rwa [(shownPath_eq_iff (p.groupName_clean hname)).mpr hpath]

/-- The thread 7 of the group `apps`. -/
theorem getSchedPolicy_reports_apps :
    Completes (fun n => oneThread.getSchedPolicy true n cpuctl 7 0)
      ((0, some SchedPolicy.foreground.code), oneThread.pthreadOnce cpuctl) := by
  refine (getSchedPolicy_reports_iff (by decide) ?_ appsThread_fits (by decide)).mpr
    ⟨apps, rfl, Or.inl rfl⟩
  simp [oneThread, start, getTid]

end PolicySys

end ThreadManager
