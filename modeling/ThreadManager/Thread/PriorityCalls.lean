import ThreadManager.Thread.PolicyHistory

/-! `androidSetThreadPriority` down to the tasks files.

    `Sched` takes a call of `set_sched_policy` for one step that sets the group. Here the call is the
    code, over the kernel's threads, and `Sched` is the abstraction: a thread is in the background group
    there exactly if its policy is `SP_BACKGROUND` here. So what was shown of the groups and the nice
    values holds of what `get_sched_policy` reports. -/

namespace ThreadManager
open Schemes

/-- The statics and the threads, with the nice value of each thread. -/
structure PrioritySys where
  policy : PolicySys
  nice : ℤ → ℤ

namespace PrioritySys

/-- `setpriority(PRIO_PROCESS, ..)`. -/
def setpriority (s : PrioritySys) (tid pri : ℤ) : Option ℤ → ℤ × PrioritySys
  | none => (0, { s with nice := Function.update s.nice tid pri })
  | some errno => (-1, { s with policy := { s.policy with errno } })

/-- The part under `gDoSchedulingGroup`, with `rc`; where the kernel refuses the policy, it is with
    `c.policyError`. -/
def setGroup (p : Process) (n : ℕ) (env : Cpuctl) (s : PrioritySys) (c : PriorityCall) :
    Outcome MemFault (Status × PolicySys) :=
  if gDoSchedulingGroup then
    if c.pri ≥ androidPriorityBackground then
      s.policy.setSchedPolicy p.haveGettid n env c.self (c.policyTid p) SchedPolicy.background.code
        c.policyError
    else if s.nice c.thread ≥ androidPriorityBackground then
      s.policy.setSchedPolicy p.haveGettid n env c.self (c.policyTid p) SchedPolicy.foreground.code
        c.policyError
    else .done (0, s.policy)
  else .done (0, s.policy)

/-- `androidSetThreadPriority`. -/
def androidSetThreadPriority (p : Process) (n : ℕ) (env : Cpuctl) (s : PrioritySys) (c : PriorityCall) :
    Outcome MemFault (Status × PrioritySys) := do
  let (rc, policy) ← s.setGroup p n env c
  let lasterr := if rc ≠ 0 then policy.errno else 0
  let (result, s) := { s with policy }.setpriority c.thread c.pri c.priorityError
  if result < 0 then return (invalidOperation, s)
  else return (rc, { s with policy := { s.policy with errno := lasterr } })

/-- The policy that a call sets. -/
def asks (s : PrioritySys) (c : PriorityCall) : Option SchedPolicy :=
  if c.pri ≥ androidPriorityBackground then some .background
  else if s.nice c.thread ≥ androidPriorityBackground then some .foreground
  else none

/-- The policies are those of `group`, as far as the background is concerned. -/
def GroupsAre (group : ℕ → SchedPolicy) (sup : ℤ) (threads : ℤ → Option KernelThread) : Prop :=
  ∀ (j : ℕ) (k : KernelThread), threads j = some k →
    (group j = .background ↔ k.policy sup = some .background)

/-- `Sched` shows the threads and their nice values. -/
structure Shows (env : Cpuctl) (s : PrioritySys) (a : Sched) : Prop where
  opened : s.policy.Opened
  groups : GroupsAre a.group (s.policy.pthreadOnce env).statics.sysSupportsSchedgroups s.policy.threads
  nice : ∀ j : ℕ, a.nice j = s.nice j

/-- `policy_tid` is positive and an `int`, and a policy that is asked for is accepted. -/
structure Granted (p : Process) (env : Cpuctl) (s : PrioritySys) (c : PriorityCall) : Prop where
  pos : 0 < c.policyTid p
  int : c.policyTid p < 2 ^ 31
  accepts : ∀ q, s.asks c = some q →
    (s.policy.pthreadOnce env).Accepts (c.policyTid p) q.code c.policyError

/-- A call that is granted its policy. -/
def Step (p : Process) (env : Cpuctl) (s : PrioritySys) (c : PriorityCall) (t : PrioritySys) : Prop :=
  s.Granted p env c ∧ ∃ rc, Completes (fun n => s.androidSetThreadPriority p n env c) (rc, t)

variable {p : Process} {env : Cpuctl} {s t : PrioritySys} {a : Sched} {c : PriorityCall} {n : ℕ}
  {group : ℕ → SchedPolicy} {sup : ℤ} {threads : ℤ → Option KernelThread}

/-- The call as `Sched` sees it. -/
def accepted (c : PriorityCall) : PriorityCall := { c with policyError := none }

/-! ### The groups -/

theorem GroupsAre.update (h : GroupsAre group sup threads) (i : ℕ) (q : SchedPolicy)
    (hq : q = .background ∨ q = .foreground) :
    GroupsAre (Function.update group i q) sup
      (Function.update threads i ((threads i).map fun k => k.placed sup q.code)) := by
  intro j k hk
  by_cases hj : j = i
  · subst hj
    rw [Function.update_self] at hk ⊢
    obtain ⟨k, -, rfl⟩ := Option.map_eq_some_iff.mp hk
    rw [k.policy_placed]
    rcases hq with rfl | rfl <;> simp [readBack, SchedPolicy.code]
  · rw [Function.update_of_ne (by exact_mod_cast hj)] at hk
    rw [Function.update_of_ne hj]
    exact h j k hk

/-! ### One call -/

/-- What a call leaves of the statics and the threads. -/
def policyAfter (p : Process) (env : Cpuctl) (s : PrioritySys) (c : PriorityCall) : PolicySys :=
  match s.asks c with
  | some q => ((s.policy.pthreadOnce env).setNow (c.policyTid p) q.code none).2
  | none => s.policy

theorem setGroup_asks : s.setGroup p n env c = match s.asks c with
    | some q => s.policy.setSchedPolicy p.haveGettid n env c.self (c.policyTid p) q.code c.policyError
    | none => .done (0, s.policy) := by
  simp only [setGroup, asks, gDoSchedulingGroup, if_true]
  split
  · rfl
  · split <;> rfl

theorem asks_cases {q : SchedPolicy} (h : s.asks c = some q) : q = .background ∨ q = .foreground := by
  unfold asks at h
  split at h
  · exact Or.inl (Option.some.inj h).symm
  · split at h
    · exact Or.inr (Option.some.inj h).symm
    · cases h

theorem setGroup_stable : Stable (fun n => s.setGroup p n env c) := by
  simp only [setGroup_asks]
  cases s.asks c with
  | some q => exact PolicySys.setSchedPolicy_stable
  | none => exact Stable.const _

theorem Granted.setGroup (h : s.Granted p env c) (hopened : s.policy.Opened) (hn : 10 < n) :
    s.setGroup p n env c = .done (0, s.policyAfter p env c) := by
  obtain ⟨hpos, hint, haccepts⟩ := h
  rw [setGroup_asks, policyAfter]
  cases hasks : s.asks c with
  | none => rfl
  | some q =>
    have hacc := haccepts q hasks
    have hallowed := hacc.allowed
    have hthread : getTid p.haveGettid c.self (c.policyTid p) = c.policyTid p :=
      if_neg fun hzero => by omega
    have hcode : mapDefault q.code = q.code := by
      rcases asks_cases hasks with rfl | rfl <;> rfl
    refine (PolicySys.setSchedPolicy_eq hopened (by rw [hthread]; omega) (by rw [hthread]; omega)
      hn).trans ?_
    rw [hallowed] at hacc ⊢
    rw [hthread, hcode]
    simp only [PolicySys.setNow_accepts hacc]

/-- The state after a call, if `setpriority` does not fail. -/
theorem Granted.succeeds (h : s.Granted p env c) (hopened : s.policy.Opened) (hn : 10 < n)
    (hpri : c.priorityError = none) : s.androidSetThreadPriority p n env c = .done (0,
      { policy := { s.policyAfter p env c with errno := 0 }
        nice := Function.update s.nice c.thread c.pri }) := by
  rw [androidSetThreadPriority, h.setGroup hopened hn, hpri]
  rfl

theorem Granted.fails {e : ℤ} (h : s.Granted p env c) (hopened : s.policy.Opened) (hn : 10 < n)
    (hpri : c.priorityError = some e) : s.androidSetThreadPriority p n env c = .done (invalidOperation,
      { policy := { s.policyAfter p env c with errno := e }, nice := s.nice }) := by
  rw [androidSetThreadPriority, h.setGroup hopened hn, hpri]
  rfl

theorem androidSetThreadPriority_stable :
    Stable (fun n => s.androidSetThreadPriority p n env c) :=
  setGroup_stable.bind fun _ => Stable.const _

theorem groupAfter_accepted (hnice : ∀ j : ℕ, a.nice j = s.nice j) : a.groupAfter p (accepted c) =
    (s.asks c).elim a.group (Function.update a.group (c.policyTid p)) := by
  have hthread : (accepted c).thread = c.thread := rfl
  have hpolicyTid : (accepted c).policyTid p = c.policyTid p := rfl
  rw [Sched.groupAfter, asks, hthread, hpolicyTid, hnice]
  by_cases hpri : c.pri ≥ androidPriorityBackground
  · rw [if_pos hpri, if_pos (show (accepted c).pri ≥ _ from hpri)]
    rfl
  · rw [if_neg hpri, if_neg (show ¬(accepted c).pri ≥ _ from hpri)]
    split <;> rfl

theorem statics_errno (q : PolicySys) (e : ℤ) :
    ({ q with errno := e }.pthreadOnce env).statics = (q.pthreadOnce env).statics := by
  unfold PolicySys.pthreadOnce PolicySys.sysInitialize
  split
  · rfl
  · cases env.access <;> cases env.fgTasks <;> cases env.bgTasks <;> rfl

/-- What a call leaves is what `Sched` shows after it, whatever becomes of `errno`. -/
theorem Shows.after (h : s.Shows env a) (hgranted : s.Granted p env c) {nice : ℤ → ℤ} {nice' : ℕ → ℤ}
    (hnice : ∀ j : ℕ, nice' j = nice j) (e e' : ℤ) :
    Shows env ⟨{ s.policyAfter p env c with errno := e }, nice⟩
      ⟨nice', a.groupAfter p (accepted c), e'⟩ := by
  obtain ⟨hopened, hgroups, hsame⟩ := h
  suffices hafter : (s.policyAfter p env c).Opened ∧ GroupsAre (a.groupAfter p (accepted c))
      ((s.policyAfter p env c).pthreadOnce env).statics.sysSupportsSchedgroups
      (s.policyAfter p env c).threads by
    refine ⟨⟨hafter.1.fg, hafter.1.bg⟩, ?_, hnice⟩
    simp only [statics_errno]
    exact hafter.2
  rw [groupAfter_accepted hsame, PrioritySys.policyAfter]
  cases hasks : s.asks c with
  | none => exact ⟨hopened, hgroups⟩
  | some q =>
    have hacc := hgranted.accepts q hasks
    rw [hacc.allowed] at hacc
    have hfiles := PolicySys.setNow_sameFiles (s.policy.pthreadOnce env) (c.policyTid p) q.code none
    have honce : ((s.policy.pthreadOnce env).setNow (c.policyTid p) q.code none).2.statics.theOnce =
        true := by
      rw [hfiles.statics, PolicySys.pthreadOnce_theOnce]
    refine ⟨hfiles.opened (hopened.pthreadOnce env), ?_⟩
    simp only [PolicySys.pthreadOnce_of_done honce, hfiles.statics]
    rw [PolicySys.setNow_accepts hacc]
    simp only [PolicySys.pthreadOnce_threads]
    exact hgroups.update (c.policyTid p) q (asks_cases hasks)

/-- The call is the call of `Sched` in which `set_sched_policy` succeeds. -/
theorem Shows.step (h : s.Shows env a) (hstep : Step p env s c t) :
    t.Shows env (a.androidSetThreadPriority p (accepted c)).2 := by
  obtain ⟨hgranted, rc, hrun⟩ := hstep
  cases hpri : c.priorityError with
  | none =>
    have ht := androidSetThreadPriority_stable.completes_unique hrun
      ⟨11, hgranted.succeeds h.opened (by decide) hpri⟩
    rw [(Prod.mk.inj ht).2, Sched.call_succeeds (c := accepted c) rfl hpri]
    refine h.after hgranted ?_ 0 0
    intro j
    by_cases hj : j = c.thread
    · subst hj
      rw [Function.update_self]
      exact Function.update_self _ _ _
    · have hcast : (j : ℤ) ≠ c.thread := by exact_mod_cast hj
      rw [Function.update_of_ne hcast, ← h.nice]
      exact Function.update_of_ne hj _ _
  | some e =>
    have ht := androidSetThreadPriority_stable.completes_unique hrun
      ⟨11, hgranted.fails h.opened (by decide) hpri⟩
    rw [(Prod.mk.inj ht).2, Sched.call_fails (c := accepted c) rfl hpri]
    exact h.after hgranted h.nice e e

/-! ### Whole runs -/

/-- Every thread is in the background exactly if its nice value says so. -/
def Consistent (env : Cpuctl) (s : PrioritySys) : Prop :=
  ∀ (j : ℕ) (k : KernelThread), s.policy.threads j = some k →
    (k.policy (s.policy.pthreadOnce env).statics.sysSupportsSchedgroups = some .background ↔
      s.nice j ≥ androidPriorityBackground)

/-- What `Sched` shows of a consistent state. -/
def shown (s : PrioritySys) : Sched where
  nice j := s.nice j
  group j := if s.nice j ≥ androidPriorityBackground then .background else .foreground
  errno := 0

theorem shown_consistent (s : PrioritySys) : s.shown.Consistent := by
  intro j
  simp [Sched.ConsistentAt, shown]

theorem Consistent.shows (h : s.Consistent env) (hopened : s.policy.Opened) : s.Shows env s.shown := by
  refine ⟨hopened, ?_, fun _ => rfl⟩
  intro j k hk
  rw [h j k hk]
  simp [shown]

theorem Shows.consistent (h : s.Shows env a) (ha : a.Consistent) : s.Consistent env := by
  intro j k hk
  rw [← h.groups j k hk, ← h.nice]
  exact ha j

/-- A call that keeps to its side is one of a consistent `Sched` that stays consistent. -/
theorem Consistent.step (h : s.Consistent env) (hopened : s.policy.Opened) (hstep : Step p env s c t)
    (hside : c.KeepsSide p s.shown.nice) : t.Consistent env ∧ t.policy.Opened := by
  have hshows := (h.shows hopened).step hstep
  refine ⟨hshows.consistent ?_, hshows.opened⟩
  exact (Sched.consistent_after_iff (c := accepted c) s.shown_consistent rfl).mpr hside

/-- After any calls that are granted their policies and keep to their sides, `get_sched_policy` reports
    the background for exactly the threads with such a nice value. -/
theorem background_reported_iff {s₀ : PrioritySys} {tr : List (Taken PrioritySys PriorityCall)}
    (hrun : Run (Step p env) s₀ tr s) (hopened : s₀.policy.Opened) (h₀ : s₀.Consistent env)
    (hside : ∀ x ∈ tr, x.act.KeepsSide p fun j => x.pre.nice j) {self j : ℕ} {k : KernelThread}
    (hpos : 0 < j) (hthread : s.policy.threads j = some k)
    (hfits : (s.policy.pthreadOnce env).statics.sysSupportsSchedgroups ≠ 0 → k.Fits) :
    Completes (fun n => s.policy.getSchedPolicy p.haveGettid n env self j)
        ((0, some SchedPolicy.background.code), s.policy.pthreadOnce env) ↔
      s.nice j ≥ androidPriorityBackground := by
  have hend := hrun.invariant (I := fun s => s.Consistent env ∧ s.policy.Opened) ⟨h₀, hopened⟩
    fun x hx hstep hpre => hpre.1.step hpre.2 hstep (hside x hx)
  have htid : getTid p.haveGettid self j = j := if_neg fun hzero => by omega
  rw [PolicySys.getSchedPolicy_completes_iff (by rw [htid]; omega) (by rw [htid, hthread]) hfits]
  exact hend.1 j k hthread

/-- The thread 7 at nice value 0. -/
def oneNormal : PrioritySys := ⟨PolicySys.oneThread, fun _ => 0⟩

theorem oneNormal_consistent : oneNormal.Consistent PolicySys.cpuctl := by
  intro j k hk
  obtain rfl : PolicySys.appsThread = k := by
    by_cases hj : (j : ℤ) = 7
    · rw [hj] at hk
      exact Option.some.inj hk
    · simp [oneNormal, PolicySys.oneThread, PolicySys.start, hj] at hk
  exact iff_of_false (by decide) (show ¬(0 : ℤ) ≥ androidPriorityBackground by decide)

/-- The thread 7 lowers its priority, and is reported to be in the background. -/
theorem background_reported_run : ∃ tr s, Run (Step ⟨true, 4⟩ PolicySys.cpuctl) oneNormal tr s ∧
    tr.map Taken.act = [⟨7, 0, 10, none, none⟩] ∧
    (Completes (fun n => s.policy.getSchedPolicy true n PolicySys.cpuctl (8 : ℕ) (7 : ℕ))
        ((0, some SchedPolicy.background.code), s.policy.pthreadOnce PolicySys.cpuctl) ↔
      s.nice (7 : ℕ) ≥ androidPriorityBackground) := by
  have hfd : 0 ≤ (PolicySys.oneThread.pthreadOnce PolicySys.cpuctl).cgroupFd
      SchedPolicy.background.code := by decide
  have hgranted : oneNormal.Granted ⟨true, 4⟩ PolicySys.cpuctl ⟨7, 0, 10, none, none⟩ := by
    refine ⟨by decide, by decide, ?_⟩
    intro q hq
    obtain rfl : SchedPolicy.background = q := Option.some.inj hq
    exact PolicySys.accepts_oneThread hfd
  have hcall := hgranted.succeeds PolicySys.opened_start (show 10 < 11 by decide) rfl
  have h₀ : Run (Step ⟨true, 4⟩ PolicySys.cpuctl) oneNormal [] oneNormal := Run.nil
  have hrun := h₀.snoc ⟨hgranted, _, 11, hcall⟩
  refine ⟨_, _, hrun, rfl, ?_⟩
  refine background_reported_iff (p := ⟨true, 4⟩) hrun PolicySys.opened_start oneNormal_consistent ?_
    (by decide) rfl ?_
  · intro x hx
    obtain rfl := List.mem_singleton.mp hx
    exact fun hfail => absurd rfl hfail
  · intro _
    exact ⟨PolicySys.appsThread_fits.above, PolicySys.appsThread_fits.hierarchy⟩

end PrioritySys

end ThreadManager
