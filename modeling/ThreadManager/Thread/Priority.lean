import ThreadManager.Thread.Thread

/-! `androidSetThreadPriority`: the priority of a thread and its scheduling group.

    A thread is to be in the background group exactly if its nice value is at least
    `ANDROID_PRIORITY_BACKGROUND`, and the code relies on it: it asks `getpriority` whether the thread
    has to leave the group. The group is set first. If `setpriority` then fails, the group is not put
    back, and a later call that succeeds may leave it where it is. For thread id 0 the two system calls
    are about the caller, but `set_sched_policy` is given `androidGetTid()`, which is `getpid()` unless
    the build defines `HAVE_GETTID`: then the group of one thread is set, and the nice value of
    another. -/

namespace ThreadManager
open Schemes

/-- `ANDROID_PRIORITY_BACKGROUND`. -/
def androidPriorityBackground : ℤ := 10

/-- The values of `SchedPolicy`. -/
inductive SchedPolicy where
  | background
  | foreground
  | system
  | audioApp
  | audioSys
  deriving DecidableEq, Repr

/-- `gDoSchedulingGroup`: `checkDoSchedulingGroup` reads no property, and leaves it as it is. -/
def gDoSchedulingGroup : Bool := true

/-- The process the code runs in: whether it was built with `HAVE_GETTID`, and what `getpid` returns,
    which is the id of its first thread. -/
structure Process where
  haveGettid : Bool
  pid : ℕ
  deriving DecidableEq, Repr

/-- `androidGetTid`, called by the thread `self`. -/
def Process.androidGetTid (p : Process) (self : ℕ) : ℕ := if p.haveGettid then self else p.pid

/-- The nice value and the scheduling group of each thread, and `errno` of the caller. -/
structure Sched where
  nice : ℕ → ℤ
  group : ℕ → SchedPolicy
  errno : ℤ

/-- A call of `androidSetThreadPriority` by the thread `self`, with the `errno` that
    `set_sched_policy` and `setpriority` fail with, if they do. -/
structure PriorityCall where
  self : ℕ
  tid : ℕ
  pri : ℤ
  policyError : Option ℤ
  priorityError : Option ℤ
  deriving DecidableEq, Repr

/-- The thread that `getpriority` and `setpriority` are about: thread id 0 is the caller. -/
def PriorityCall.thread (c : PriorityCall) : ℕ := if c.tid = 0 then c.self else c.tid

/-- `policy_tid`. -/
def PriorityCall.policyTid (c : PriorityCall) (p : Process) : ℕ :=
  if c.tid = 0 then p.androidGetTid c.self else c.tid

/-- A call that leaves the groups to agree with the nice values. If it is about one thread and
    `setpriority` fails, the priority asked for is on the same side of the threshold as the nice value.
    If it sets the group of another thread, that one has a nice value that agrees with the group; and
    if `setpriority` succeeds, the nice value of the first stays on its side. -/
def PriorityCall.KeepsSide (c : PriorityCall) (p : Process) (nice : ℕ → ℤ) : Prop :=
  if c.policyTid p = c.thread then
    c.priorityError ≠ none →
      (c.pri ≥ androidPriorityBackground ↔ nice c.thread ≥ androidPriorityBackground)
  else
    (c.pri ≥ androidPriorityBackground → nice (c.policyTid p) ≥ androidPriorityBackground) ∧
    (c.priorityError = none →
      (c.pri ≥ androidPriorityBackground ↔ nice c.thread ≥ androidPriorityBackground)) ∧
    (c.priorityError ≠ none → ¬c.pri ≥ androidPriorityBackground →
      nice c.thread ≥ androidPriorityBackground →
      ¬nice (c.policyTid p) ≥ androidPriorityBackground)

instance (c : PriorityCall) (p : Process) (nice : ℕ → ℤ) : Decidable (c.KeepsSide p nice) :=
  inferInstanceAs (Decidable (ite _ _ _))

namespace Sched

/-- `set_sched_policy`. -/
def setSchedPolicy (s : Sched) (tid : ℕ) (policy : SchedPolicy) : Option ℤ → Status × Sched
  | none => (0, { s with group := Function.update s.group tid policy })
  | some errno => (-errno, { s with errno })

/-- `setpriority(PRIO_PROCESS, ..)`. -/
def setpriority (s : Sched) (tid : ℕ) (pri : ℤ) : Option ℤ → ℤ × Sched
  | none => (0, { s with nice := Function.update s.nice tid pri })
  | some errno => (-1, { s with errno })

/-- The part of `androidSetThreadPriority` under `gDoSchedulingGroup`, with `rc`. -/
def setGroup (p : Process) (s : Sched) (c : PriorityCall) : Status × Sched :=
  if gDoSchedulingGroup then
    if c.pri ≥ androidPriorityBackground then
      s.setSchedPolicy (c.policyTid p) .background c.policyError
    else if s.nice c.thread ≥ androidPriorityBackground then
      s.setSchedPolicy (c.policyTid p) .foreground c.policyError
    else (0, s)
  else (0, s)

/-- `androidSetThreadPriority`. -/
def androidSetThreadPriority (p : Process) (s : Sched) (c : PriorityCall) : Status × Sched :=
  let (rc, s) := s.setGroup p c
  let lasterr := if rc ≠ 0 then s.errno else 0
  let (result, s) := s.setpriority c.thread c.pri c.priorityError
  if result < 0 then (invalidOperation, s) else (rc, { s with errno := lasterr })

/-- The group of the thread is the background group exactly if its nice value says so. -/
def ConsistentAt (s : Sched) (t : ℕ) : Prop :=
  s.group t = .background ↔ s.nice t ≥ androidPriorityBackground

def Consistent (s : Sched) : Prop := ∀ t, s.ConsistentAt t

/-- A call in which `set_sched_policy` succeeds. -/
def Step (p : Process) (s : Sched) (c : PriorityCall) (t : Sched) : Prop :=
  c.policyError = none ∧ t = (s.androidSetThreadPriority p c).2

/-- The group after a call whose `set_sched_policy` succeeds, whatever `setpriority` does. -/
def groupAfter (p : Process) (s : Sched) (c : PriorityCall) : ℕ → SchedPolicy :=
  if c.pri ≥ androidPriorityBackground then Function.update s.group (c.policyTid p) .background
  else if s.nice c.thread ≥ androidPriorityBackground then
    Function.update s.group (c.policyTid p) .foreground
  else s.group

/-- Between the two parts of a call: the thread of `policy_tid` is where the call puts it, or where its
    nice value says if the call leaves it alone, and the other thread is where its nice value says. -/
structure Placed (p : Process) (s : Sched) (c : PriorityCall) : Prop where
  policyTid : s.group (c.policyTid p) = .background ↔ c.pri ≥ androidPriorityBackground ∨
    ¬s.nice c.thread ≥ androidPriorityBackground ∧ s.nice (c.policyTid p) ≥ androidPriorityBackground
  thread : c.thread ≠ c.policyTid p → s.ConsistentAt c.thread

variable {s t : Sched} {p : Process} {c : PriorityCall} {k : ℕ} {e : ℤ}

/-! ### One call -/

theorem setGroup_eq (hpolicy : c.policyError = none) :
    s.setGroup p c = (0, { s with group := s.groupAfter p c }) := by
  simp only [setGroup, groupAfter, gDoSchedulingGroup, if_true, hpolicy, setSchedPolicy]
  split
  · rfl
  · split <;> rfl

theorem call_succeeds (hpolicy : c.policyError = none) (h : c.priorityError = none) :
    s.androidSetThreadPriority p c = (0, { s with
      nice := Function.update s.nice c.thread c.pri, group := s.groupAfter p c, errno := 0 }) := by
  simp only [androidSetThreadPriority, setGroup_eq hpolicy, h, setpriority]
  rfl

theorem call_fails (hpolicy : c.policyError = none) (h : c.priorityError = some e) :
    s.androidSetThreadPriority p c =
      (invalidOperation, { s with group := s.groupAfter p c, errno := e }) := by
  simp only [androidSetThreadPriority, setGroup_eq hpolicy, h, setpriority]
  rfl

theorem groupAfter_of_ne (hk : k ≠ c.policyTid p) : s.groupAfter p c k = s.group k := by
  unfold groupAfter
  split
  · exact Function.update_of_ne hk _ _
  · split
    · exact Function.update_of_ne hk _ _
    · rfl

theorem Placed.background (hpri : c.pri ≥ androidPriorityBackground)
    (hthread : s.ConsistentAt c.thread) :
    Placed p (s.setSchedPolicy (c.policyTid p) .background none).2 c := by
  refine ⟨?_, fun hne => ?_⟩
  · simp [setSchedPolicy, hpri]
  · simpa only [setSchedPolicy, ConsistentAt, Function.update_of_ne hne] using hthread

theorem Placed.foreground (hpri : ¬c.pri ≥ androidPriorityBackground)
    (hnice : s.nice c.thread ≥ androidPriorityBackground) (hthread : s.ConsistentAt c.thread) :
    Placed p (s.setSchedPolicy (c.policyTid p) .foreground none).2 c := by
  refine ⟨?_, fun hne => ?_⟩
  · simp [setSchedPolicy, hpri, hnice]
  · simpa only [setSchedPolicy, ConsistentAt, Function.update_of_ne hne] using hthread

theorem Placed.untouched (hpri : ¬c.pri ≥ androidPriorityBackground)
    (hnice : ¬s.nice c.thread ≥ androidPriorityBackground)
    (hpolicy : s.ConsistentAt (c.policyTid p)) (hthread : s.ConsistentAt c.thread) :
    Placed p s c := by
  refine ⟨?_, fun _ => hthread⟩
  simp only [hpri, hnice, not_false_eq_true, true_and, false_or]
  exact hpolicy

/-- From a state in which the two threads are where they should be. -/
theorem groupAfter_placed (hpolicy : s.ConsistentAt (c.policyTid p))
    (hthread : s.ConsistentAt c.thread) :
    Placed p { s with group := s.groupAfter p c } c := by
  unfold groupAfter
  split
  case isTrue hpri => exact Placed.background hpri hthread
  case isFalse hpri =>
    split
    case isTrue hnice => exact Placed.foreground hpri hnice hthread
    case isFalse hnice => exact Placed.untouched hpri hnice hpolicy hthread

/-- Behind `setpriority` both threads are where they should be exactly if the call keeps to its side. -/
theorem Placed.setpriority (h : s.Placed p c) :
    (s.setpriority c.thread c.pri c.priorityError).2.ConsistentAt (c.policyTid p) ∧
      (s.setpriority c.thread c.pri c.priorityError).2.ConsistentAt c.thread ↔
    c.KeepsSide p s.nice := by
  obtain ⟨hplaced, hthread⟩ := h
  unfold PriorityCall.KeepsSide
  by_cases hne : c.policyTid p = c.thread
  · rw [if_pos hne]
    simp only [hne] at hplaced ⊢
    cases hpri : c.priorityError with
    | none => simp [Sched.setpriority, ConsistentAt, hplaced]
    | some e =>
      simp only [Sched.setpriority, ConsistentAt, hplaced, and_self, ne_eq, reduceCtorEq,
        not_false_eq_true, forall_const]
      grind
  · have hother := hthread (Ne.symm hne)
    simp only [ConsistentAt] at hother
    rw [if_neg hne]
    cases hpri : c.priorityError with
    | none =>
      simp only [Sched.setpriority, ConsistentAt, hplaced, hother, Function.update_self,
        Function.update_of_ne hne, ne_eq, not_true_eq_false, forall_const, false_imp_iff, and_true]
      grind
    | some e =>
      simp only [Sched.setpriority, ConsistentAt, hplaced, hother, ne_eq, reduceCtorEq,
        not_false_eq_true, forall_const, false_imp_iff, true_and, and_true]
      grind

/-- After a call the state is consistent again exactly if it keeps to its side. -/
theorem consistent_after_iff (h : s.Consistent) (hpolicy : c.policyError = none) :
    (s.androidSetThreadPriority p c).2.Consistent ↔ c.KeepsSide p s.nice := by
  have hplaced := groupAfter_placed (h (c.policyTid p)) (h c.thread)
  have hafter : ∀ k, (s.androidSetThreadPriority p c).2.ConsistentAt k ↔
      ({ s with group := s.groupAfter p c }.setpriority c.thread c.pri
        c.priorityError).2.ConsistentAt k := by
    intro k
    cases hpri : c.priorityError with
    | none =>
      rw [call_succeeds hpolicy hpri]
      rfl
    | some e =>
      rw [call_fails hpolicy hpri]
      rfl
  rw [← hplaced.setpriority]
  refine ⟨fun hall => ⟨(hafter _).mp (hall _), (hafter _).mp (hall _)⟩, ?_⟩
  rintro ⟨hfirst, hsecond⟩ k
  rw [hafter]
  by_cases hk : k = c.policyTid p
  · rwa [hk]
  · by_cases hk' : k = c.thread
    · rwa [hk']
    · have hgroup := groupAfter_of_ne (s := s) hk
      have hsame := h k
      unfold ConsistentAt at hsame ⊢
      cases c.priorityError with
      | none =>
        simp only [Sched.setpriority, hgroup, Function.update_of_ne hk']
        exact hsame
      | some e =>
        simp only [Sched.setpriority, hgroup]
        exact hsame

/-- The state after the call is consistent, and if `setpriority` failed, the call has returned
    `INVALID_OPERATION` with the nice values and the groups as they were. -/
structure Obeys (p : Process) (x : Taken Sched PriorityCall) : Prop where
  consistent : x.post.Consistent
  unchanged : x.act.priorityError ≠ none →
    (x.pre.androidSetThreadPriority p x.act).1 = invalidOperation ∧
      x.post.nice = x.pre.nice ∧ x.post.group = x.pre.group

/-- The call keeps to its side; and if its `setpriority` fails, and it takes another thread than the one
    it is about to the foreground, that one is there. -/
structure SameSide (p : Process) (x : Taken Sched PriorityCall) : Prop where
  keeps : x.act.KeepsSide p x.pre.nice
  foreground : x.act.priorityError ≠ none → x.act.policyTid p ≠ x.act.thread →
    ¬x.act.pri ≥ androidPriorityBackground → x.pre.nice x.act.thread ≥ androidPriorityBackground →
    x.pre.group (x.act.policyTid p) = .foreground

/-- What a call that keeps to its side leaves of the groups if its `setpriority` fails. -/
theorem groupAfter_eq_iff (h : s.Consistent) (hfail : c.priorityError ≠ none)
    (hkeeps : c.KeepsSide p s.nice) : s.groupAfter p c = s.group ↔
      (c.policyTid p ≠ c.thread → ¬c.pri ≥ androidPriorityBackground →
        s.nice c.thread ≥ androidPriorityBackground → s.group (c.policyTid p) = .foreground) := by
  have hpolicy := h (c.policyTid p)
  unfold PriorityCall.KeepsSide at hkeeps
  unfold groupAfter
  split
  case isTrue hpri =>
    have hnice : s.nice (c.policyTid p) ≥ androidPriorityBackground := by
      split at hkeeps
      case isTrue hsame => exact hsame ▸ (hkeeps hfail).mp hpri
      case isFalse => exact hkeeps.1 hpri
    refine iff_of_true ?_ fun _ hno => absurd hpri hno
    rw [← hpolicy.mpr hnice, Function.update_eq_self]
  case isFalse hpri =>
    split
    case isFalse hnice => exact iff_of_true rfl fun _ _ hno => absurd hno hnice
    case isTrue hnice =>
      have hne : c.policyTid p ≠ c.thread := by
        intro hsame
        rw [if_pos hsame] at hkeeps
        exact hpri ((hkeeps hfail).mpr hnice)
      rw [Function.update_eq_self_iff]
      exact ⟨fun hgroup _ _ _ => hgroup.symm, fun hgroup => (hgroup hne hpri hnice).symm⟩

theorem obeys_iff (h : s.Consistent) (hstep : Step p s c t) :
    Obeys p ⟨s, c, t⟩ ↔ SameSide p ⟨s, c, t⟩ := by
  obtain ⟨hpolicy, rfl⟩ := hstep
  have hconsistent := consistent_after_iff (p := p) h hpolicy
  have hunchanged : c.priorityError ≠ none → ((s.androidSetThreadPriority p c).1 = invalidOperation ∧
      (s.androidSetThreadPriority p c).2.nice = s.nice ∧
      (s.androidSetThreadPriority p c).2.group = s.group ↔ s.groupAfter p c = s.group) := by
    intro hfail
    obtain ⟨e, he⟩ := Option.ne_none_iff_exists'.mp hfail
    rw [call_fails hpolicy he]
    simp
  constructor
  · rintro ⟨hafter, hsame⟩
    have hkeeps := hconsistent.mp hafter
    refine ⟨hkeeps, fun hfail => ?_⟩
    exact (groupAfter_eq_iff h hfail hkeeps).mp ((hunchanged hfail).mp (hsame hfail))
  · rintro ⟨hkeeps, hforeground⟩
    refine ⟨hconsistent.mpr hkeeps, fun hfail => (hunchanged hfail).mpr ?_⟩
    exact (groupAfter_eq_iff h hfail hkeeps).mpr (hforeground hfail)

/-! ### Whole histories -/

/-- From a consistent state, all calls keep the groups consistent and fail without effect exactly if all
    of them keep to their sides. -/
theorem group_follows_iff {s₀ : Sched} {tr : List (Taken Sched PriorityCall)} (h₀ : s₀.Consistent)
    (hrun : Run (Step p) s₀ tr s) : (∀ x ∈ tr, Obeys p x) ↔ ∀ x ∈ tr, SameSide p x := by
  refine hrun.forall_iff (I := Consistent) h₀ ?_ ?_
  · intro x _ hstep hpre
    exact obeys_iff hpre hstep
  · intro x _ hstep hpre hside
    exact ((obeys_iff hpre hstep).mpr hside).consistent

/-- All threads in the foreground. -/
def allNormal : Sched := ⟨fun _ => 0, fun _ => .foreground, 0⟩

theorem allNormal_consistent : allNormal.Consistent := by
  intro k
  simp [ConsistentAt, allNormal, androidPriorityBackground]

/-- Into the background, a lower priority that fails, and back again. The last but one call is for
    thread id 0 by a thread that is not the first, and leaves it in the foreground. -/
theorem group_follows_run : ∃ tr s, allNormal.Consistent ∧ Run (Step ⟨false, 4⟩) allNormal tr s ∧
    tr.map Taken.act = [⟨4, 5, 10, none, none⟩, ⟨4, 5, 15, none, some 13⟩, ⟨6, 0, 5, none, none⟩,
      ⟨4, 5, 0, none, none⟩] ∧ ∀ x ∈ tr, Obeys ⟨false, 4⟩ x := by
  have h₀ : Run (Step ⟨false, 4⟩) allNormal [] _ := Run.nil
  have h₁ := h₀.snoc (a := PriorityCall.mk 4 5 10 none none) ⟨rfl, rfl⟩
  have h₂ := h₁.snoc (a := PriorityCall.mk 4 5 15 none (some 13)) ⟨rfl, rfl⟩
  have h₃ := h₂.snoc (a := PriorityCall.mk 6 0 5 none none) ⟨rfl, rfl⟩
  have h₄ := h₃.snoc (a := PriorityCall.mk 4 5 0 none none) ⟨rfl, rfl⟩
  refine ⟨_, _, allNormal_consistent, h₄, rfl, (group_follows_iff allNormal_consistent h₄).mpr ?_⟩
  simp only [List.nil_append, List.cons_append, List.forall_mem_cons]
  refine ⟨⟨?_, ?_⟩, ⟨?_, ?_⟩, ⟨?_, ?_⟩, ⟨?_, ?_⟩, by simp⟩
  all_goals decide

/-- Into the background with a `setpriority` that fails: the thread is in the background group with
    its old nice value, and a second call, which succeeds, leaves it there. And without `HAVE_GETTID`
    a thread that is not the first asks for itself to be in the background: it gets the nice value,
    and the first thread goes to the group. -/
theorem group_left_behind :
    (∃ tr s, Run (Step ⟨false, 4⟩) allNormal tr s ∧
      tr.map Taken.act = [⟨4, 5, 10, none, some 13⟩, ⟨4, 5, 0, none, none⟩] ∧
      s.nice 5 = 0 ∧ s.group 5 = .background ∧ ¬∀ x ∈ tr, Obeys ⟨false, 4⟩ x) ∧
    ∃ tr s, Run (Step ⟨false, 4⟩) allNormal tr s ∧ tr.map Taken.act = [⟨5, 0, 10, none, none⟩] ∧
      s.nice 5 = 10 ∧ s.group 5 = .foreground ∧ s.nice 4 = 0 ∧ s.group 4 = .background ∧
      ¬∀ x ∈ tr, Obeys ⟨false, 4⟩ x := by
  have h₀ : Run (Step ⟨false, 4⟩) allNormal [] _ := Run.nil
  refine ⟨?_, ?_⟩
  · have h₁ := h₀.snoc (a := PriorityCall.mk 4 5 10 none (some 13)) ⟨rfl, rfl⟩
    have h₂ := h₁.snoc (a := PriorityCall.mk 4 5 0 none none) ⟨rfl, rfl⟩
    refine ⟨_, _, h₂, rfl, by decide, by decide, ?_⟩
    intro hall
    have hlast := (hall _ (List.mem_append_right _ List.mem_cons_self)).consistent 5
    exact absurd (hlast.mp (by decide)) (by decide)
  · have h₁ := h₀.snoc (a := PriorityCall.mk 5 0 10 none none) ⟨rfl, rfl⟩
    refine ⟨_, _, h₁, rfl, by decide, by decide, by decide, by decide, ?_⟩
    intro hall
    have hfirst := (hall _ List.mem_cons_self).consistent 4
    exact absurd (hfirst.mp (by decide)) (by decide)

end Sched

end ThreadManager
