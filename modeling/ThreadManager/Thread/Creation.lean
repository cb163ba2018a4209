import ThreadManager.Thread.Priority
import ThreadManager.Thread.ThreadName

/-! `androidCreateRawThreadEtc` and the trampoline of a new thread, with any number of threads that
    create others and call `androidSetThreadPriority`, system call by system call.

    A new thread has the nice value and the group of its parent. If it is given a priority or a name, it
    sets them itself, in its trampoline: the nice value first, then the group that goes with the
    priority asked for, whether or not it got it, then the name. For the audio priorities the group is
    left as it is. Without `HAVE_GETTID` it is the group of the first thread of the process that the
    trampoline sets. So a thread may begin its work in a group that does not go with its nice value.

    `androidSetThreadPriority` takes no lock: two calls about one thread may leave it with the nice value
    of one and the group of the other. The result is about the runs in which no two of them meet. -/

namespace ThreadManager
open Schemes

/-- `ANDROID_PRIORITY_AUDIO`. -/
def androidPriorityAudio : ℤ := -16

/-- `PRIORITY_DEFAULT`. -/
def priorityDefault : ℤ := 0

/-- The bytes of a C string. -/
def CName : Type := { s : List Byte // 0 ∉ s }

/-- The array `strdup` makes. -/
def CName.chars (s : CName) : Chars := s.val.map some ++ [some 0]

/-- `thread_data_t`, without what is passed on. -/
structure ThreadData where
  priority : ℤ
  threadName : Option CName

/-- How far a trampoline is; `failed` says whether `setpriority` did, which nothing looks at. -/
inductive TrampolinePc where
  | setpriority
  | policy (failed : Bool)
  | name
  deriving DecidableEq, Repr

/-- What a thread is doing. -/
inductive Phase where
  | absent
  | starting (t : ThreadData) (pc : TrampolinePc)
  | running

/-- How far a call of `androidSetThreadPriority` is: before the test of `pri`, with `getpriority` if that
    is next; before `set_sched_policy` for the foreground; before `setpriority`. -/
inductive CallStage where
  | group
  | foreground
  | priority
  deriving DecidableEq, Repr

/-- Nice values and groups, what the threads are doing, their names, and the calls of
    `androidSetThreadPriority` that they are in. Nothing reads `errno`, of which each thread has its
    own. -/
structure Creation where
  sched : Sched
  phase : ℕ → Phase
  comm : ℕ → List Byte
  calls : ℕ → Option (PriorityCall × CallStage)

/-- A thread creates another one, or fails to; a system call of a trampoline; a thread calls
    `androidSetThreadPriority`; the next system call of the one it is in; the end of a thread. -/
inductive CreationAct where
  | create (parent child : ℕ) (priority : ℤ) (name : Option CName) (created : Bool)
  | setpriority (t : ℕ) (error : Option ℤ)
  | policy (t : ℕ)
  | name (t : ℕ) (comm : List Byte)
  | call (c : PriorityCall)
  | proceed (i : ℕ)
  | exit (t : ℕ)

/-- The thread begins with the trampoline if it is given a priority or a name. -/
def firstPhase (priority : ℤ) (name : Option CName) : Phase :=
  if priority ≠ priorityDefault ∨ name.isSome then .starting ⟨priority, name⟩ .setpriority
  else .running

/-- What is left of the trampoline behind the group. -/
def ThreadData.afterPolicy (t : ThreadData) : Phase :=
  if t.threadName.isSome then .starting t .name else .running

namespace Sched

/-- The part of the trampoline of `t` under `gDoSchedulingGroup`. -/
def trampolineGroup (p : Process) (s : Sched) (t : ℕ) (prio : ℤ) : Sched :=
  if gDoSchedulingGroup then
    if prio ≥ androidPriorityBackground then
      (s.setSchedPolicy (p.androidGetTid t) .background none).2
    else if prio > androidPriorityAudio then
      (s.setSchedPolicy (p.androidGetTid t) .foreground none).2
    else s
  else s

/-- `androidSetThreadPriority` with a `set_sched_policy` that succeeds, up to its next change, and how
    far it is then. -/
def advance (p : Process) (s : Sched) (c : PriorityCall) : CallStage → Sched × Option CallStage
  | .group =>
    if gDoSchedulingGroup then
      if c.pri ≥ androidPriorityBackground then
        ((s.setSchedPolicy (c.policyTid p) .background none).2, some .priority)
      else if s.nice c.thread ≥ androidPriorityBackground then (s, some .foreground)
      else (s, some .priority)
    else (s, some .priority)
  | .foreground => ((s.setSchedPolicy (c.policyTid p) .foreground none).2, some .priority)
  | .priority => ((s.setpriority c.thread c.pri c.priorityError).2, none)

end Sched

/-- The threads that a call is about. -/
def PriorityCall.About (c : PriorityCall) (p : Process) (k : ℕ) : Prop :=
  k = c.policyTid p ∨ k = c.thread

/-- Where the threads of a call stand at a stage of it. -/
def CallStage.Holds (p : Process) (s : Sched) (c : PriorityCall) : CallStage → Prop
  | .group => s.ConsistentAt (c.policyTid p) ∧ s.ConsistentAt c.thread
  | .foreground => s.ConsistentAt c.thread ∧ ¬c.pri ≥ androidPriorityBackground ∧
      s.nice c.thread ≥ androidPriorityBackground
  | .priority => s.Placed p c

namespace Creation

/-- What an action can do. -/
inductive Step (p : Process) (s : Creation) : CreationAct → Creation → Prop
  | create {parent child priority name} (hparent : s.phase parent = .running)
      (hidle : s.calls parent = none) (hchild : s.phase child = .absent) :
      Step p s (.create parent child priority name true)
        { s with
          sched := { s.sched with
            nice := Function.update s.sched.nice child (s.sched.nice parent)
            group := Function.update s.sched.group child (s.sched.group parent) }
          phase := Function.update s.phase child (firstPhase priority name)
          comm := Function.update s.comm child (s.comm parent) }
  | createFails {parent child priority name} (hparent : s.phase parent = .running)
      (hidle : s.calls parent = none) : Step p s (.create parent child priority name false) s
  | setpriority {t d error} (h : s.phase t = .starting d .setpriority) :
      Step p s (.setpriority t error)
        { s with
          sched := (s.sched.setpriority t d.priority error).2
          phase := Function.update s.phase t (.starting d (.policy error.isSome)) }
  | policy {t d failed} (h : s.phase t = .starting d (.policy failed)) :
      Step p s (.policy t)
        { s with
          sched := s.sched.trampolineGroup p t d.priority
          phase := Function.update s.phase t d.afterPolicy }
  | name {t d name comm} (h : s.phase t = .starting d .name) (hname : d.threadName = some name)
      (hcomm : Completes (fun n => setThreadName n name.chars 0) comm) :
      Step p s (.name t comm)
        { s with
          phase := Function.update s.phase t .running
          comm := Function.update s.comm t comm }
  | call {c : PriorityCall} (hself : s.phase c.self = .running) (hidle : s.calls c.self = none)
      (hpolicy : c.policyError = none) :
      Step p s (.call c) { s with calls := Function.update s.calls c.self (some (c, .group)) }
  | proceed {i c stage} (h : s.calls i = some (c, stage)) :
      Step p s (.proceed i)
        { s with
          sched := (s.sched.advance p c stage).1
          calls := Function.update s.calls i ((s.sched.advance p c stage).2.map (Prod.mk c)) }
  | exit {t} (h : s.phase t = .running) (hidle : s.calls t = none) :
      Step p s (.exit t) { s with phase := Function.update s.phase t .absent }

/-- The trampoline is behind the call for the group, or there is none. -/
def Grouped (s : Creation) (t : ℕ) : Prop :=
  match s.phase t with
  | .running => True
  | .starting _ .name => True
  | _ => False

/-- A call about the thread is in progress. -/
def Busy (p : Process) (s : Creation) (k : ℕ) : Prop :=
  ∃ i c stage, s.calls i = some (c, stage) ∧ c.About p k

/-- A thread whose group is set, and that no call in progress is about, is in the background group
    exactly if its nice value says so. -/
def Settled (p : Process) (s : Creation) : Prop :=
  ∀ k, s.Grouped k → ¬s.Busy p k → s.sched.ConsistentAt k

/-- The calls are about threads behind their trampolines, and nothing is done about a thread that a call
    in progress is about: it creates no other, no trampoline sets its group, it does not exit. The
    first thread stays, if groups are set through its id. -/
def Undisturbed (p : Process) (s : Creation) : CreationAct → Prop
  | .create parent _ _ _ true => ¬s.Busy p parent
  | .policy t => ¬s.Busy p (p.androidGetTid t)
  | .call c => ∀ k, c.About p k → s.Grouped k ∧ ¬s.Busy p k
  | .exit t => ¬s.Busy p t ∧ (p.haveGettid = false → t ≠ p.pid)
  | _ => True

/-- A step that does not go wrong. A trampoline: the thread that it puts into a group has a nice value
    that goes with it, and if its own group is left alone behind a `setpriority` that succeeded, the one
    it has from its parent goes with the priority. The end of a call: see `KeepsSide`. -/
def Keeps (p : Process) (s : Creation) : CreationAct → Prop
  | .policy t => match s.phase t with
    | .starting d (.policy failed) =>
      (d.priority > androidPriorityAudio → (d.priority ≥ androidPriorityBackground ↔
        s.sched.nice (p.androidGetTid t) ≥ androidPriorityBackground)) ∧
      ((d.priority > androidPriorityAudio → p.androidGetTid t ≠ t) → failed = false →
        (s.sched.group t = .background ↔ d.priority ≥ androidPriorityBackground))
    | _ => True
  | .proceed i => match s.calls i with
    | some (c, .priority) => c.KeepsSide p s.sched.nice
    | _ => True
  | _ => True

/-- Where a thread stands: with the group of its nice value, but for the time between a `setpriority`
    that succeeded and the call for the group. -/
def Good (s : Creation) (t : ℕ) : Prop :=
  match s.phase t with
  | .absent => True
  | .starting d (.policy false) => s.sched.nice t = d.priority
  | _ => s.sched.ConsistentAt t

/-- All threads stand well but for those of the calls in progress, which stand as their calls have them;
    no two calls are about one thread. -/
structure Inv (p : Process) (s : Creation) : Prop where
  good : ∀ k, ¬s.Busy p k → s.Good k
  stage : ∀ {i c stage}, s.calls i = some (c, stage) → stage.Holds p s.sched c
  grouped : ∀ k, s.Busy p k → s.Grouped k
  apart : ∀ {i j c d stage stage' k}, s.calls i = some (c, stage) → s.calls j = some (d, stage') →
    c.About p k → d.About p k → i = j
  leader : p.haveGettid = false → s.phase p.pid = .running

/-- The step leaves the thread where it stands. -/
structure SameAt (s t : Creation) (k : ℕ) : Prop where
  nice : t.sched.nice k = s.sched.nice k
  group : t.sched.group k = s.sched.group k
  grouped : s.Grouped k → t.Grouped k
  good : s.Good k → t.Good k

variable {s t : Creation} {a : CreationAct} {c : PriorityCall} {sched sched' : Sched} {p : Process}
  {i j k : ℕ} {prio e : ℤ} {stage next : CallStage}

/-! ### The system calls -/

theorem trampolineGroup_cases (p : Process) (sched : Sched) (i : ℕ) (prio : ℤ) :
    prio > androidPriorityAudio ∧ (∃ policy, (policy = .background ↔ prio ≥ androidPriorityBackground) ∧
      sched.trampolineGroup p i prio = (sched.setSchedPolicy (p.androidGetTid i) policy none).2) ∨
    ¬prio > androidPriorityAudio ∧ sched.trampolineGroup p i prio = sched := by
  have haudio : androidPriorityAudio < androidPriorityBackground := by decide
  simp only [Sched.trampolineGroup, gDoSchedulingGroup, if_true]
  by_cases hbg : prio ≥ androidPriorityBackground
  · exact Or.inl ⟨lt_of_lt_of_le haudio hbg, .background, iff_of_true rfl hbg, if_pos hbg⟩
  · rw [if_neg hbg]
    by_cases hgt : prio > androidPriorityAudio
    · exact Or.inl ⟨hgt, .foreground, iff_of_false (by decide) hbg, if_pos hgt⟩
    · exact Or.inr ⟨hgt, if_neg hgt⟩

@[simp] theorem trampolineGroup_nice : (sched.trampolineGroup p i prio).nice = sched.nice := by
  rcases trampolineGroup_cases p sched i prio with ⟨-, policy, -, heq⟩ | ⟨-, heq⟩
  · rw [heq]
    rfl
  · rw [heq]

theorem trampolineGroup_of_ne (hj : j ≠ p.androidGetTid i) :
    (sched.trampolineGroup p i prio).group j = sched.group j := by
  rcases trampolineGroup_cases p sched i prio with ⟨-, policy, -, heq⟩ | ⟨-, heq⟩
  · rw [heq]
    exact Function.update_of_ne hj _ _
  · rw [heq]

/-- The thread whose group is set, behind the call for the group. -/
theorem trampolineGroup_consistent :
    (sched.trampolineGroup p i prio).ConsistentAt (p.androidGetTid i) ↔
      if prio > androidPriorityAudio then (prio ≥ androidPriorityBackground ↔
        sched.nice (p.androidGetTid i) ≥ androidPriorityBackground)
      else sched.ConsistentAt (p.androidGetTid i) := by
  rcases trampolineGroup_cases p sched i prio with ⟨hgt, policy, hpolicy, heq⟩ | ⟨hgt, heq⟩
  · rw [heq, if_pos hgt]
    simp [Sched.ConsistentAt, Sched.setSchedPolicy, hpolicy]
  · rw [heq, if_neg hgt]

theorem setpriority_group {error : Option ℤ} :
    (sched.setpriority i prio error).2.group = sched.group := by
  cases error <;> rfl

theorem setpriority_of_ne {error : Option ℤ} (hj : j ≠ i) :
    (sched.setpriority i prio error).2.nice j = sched.nice j := by
  cases error with
  | none => exact Function.update_of_ne hj _ _
  | some e => rfl

theorem advance_of_not_about (hk : ¬c.About p k) :
    (sched.advance p c stage).1.nice k = sched.nice k ∧
      (sched.advance p c stage).1.group k = sched.group k := by
  obtain ⟨hpolicy, hthread⟩ := not_or.mp hk
  cases stage with
  | group =>
    simp only [Sched.advance, gDoSchedulingGroup, if_true]
    split
    · exact ⟨rfl, Function.update_of_ne hpolicy _ _⟩
    · split <;> exact ⟨rfl, rfl⟩
  | foreground => exact ⟨rfl, Function.update_of_ne hpolicy _ _⟩
  | priority => exact ⟨setpriority_of_ne hthread, congrFun setpriority_group k⟩

/-- One stage leads to the next. -/
theorem advance_holds (h : stage.Holds p sched c) (hnext : (sched.advance p c stage).2 = some next) :
    next.Holds p (sched.advance p c stage).1 c := by
  cases stage with
  | group =>
    obtain ⟨hpolicy, hthread⟩ := h
    simp only [Sched.advance, gDoSchedulingGroup, if_true] at hnext ⊢
    split
    case isTrue hpri =>
      obtain rfl : CallStage.priority = next := by simpa [hpri] using hnext
      exact Sched.Placed.background hpri hthread
    case isFalse hpri =>
      split
      case isTrue hnice =>
        obtain rfl : CallStage.foreground = next := by simpa [hpri, hnice] using hnext
        exact ⟨hthread, hpri, hnice⟩
      case isFalse hnice =>
        obtain rfl : CallStage.priority = next := by simpa [hpri, hnice] using hnext
        exact Sched.Placed.untouched hpri hnice hpolicy hthread
  | foreground =>
    obtain ⟨hthread, hpri, hnice⟩ := h
    obtain rfl := Option.some.inj hnext
    exact Sched.Placed.foreground hpri hnice hthread
  | priority => exact absurd hnext (by simp [Sched.advance])

theorem advance_last (hnext : (sched.advance p c stage).2 = none) : stage = .priority := by
  cases stage with
  | group =>
    simp only [Sched.advance, gDoSchedulingGroup, if_true] at hnext
    split at hnext
    · cases hnext
    · split at hnext <;> cases hnext
  | foreground => cases hnext
  | priority => rfl

/-- A stage is about the threads of the call alone. -/
theorem holds_congr (hsame : ∀ k, c.About p k →
      sched'.nice k = sched.nice k ∧ sched'.group k = sched.group k)
    (h : stage.Holds p sched c) : stage.Holds p sched' c := by
  obtain ⟨hnice, hgroup⟩ := hsame (c.policyTid p) (Or.inl rfl)
  obtain ⟨hnice', hgroup'⟩ := hsame c.thread (Or.inr rfl)
  cases stage with
  | group => simpa only [CallStage.Holds, Sched.ConsistentAt, hnice, hgroup, hnice', hgroup'] using h
  | foreground =>
    simpa only [CallStage.Holds, Sched.ConsistentAt, hnice', hgroup'] using h
  | priority =>
    refine ⟨?_, ?_⟩
    · simpa only [hnice, hgroup, hnice'] using h.policyTid
    · simpa only [Sched.ConsistentAt, hnice', hgroup'] using h.thread

/-! ### One step -/

theorem good_running (h : s.phase i = .running) : s.Good i ↔ s.sched.ConsistentAt i := by
  simp only [Good, h]

theorem good_grouped (h : s.Grouped i) : s.Good i ↔ s.sched.ConsistentAt i := by
  unfold Grouped at h
  unfold Good
  split at h
  case h_1 hphase => simp only [hphase]
  case h_2 hphase => simp only [hphase]
  case h_3 => exact absurd h id

theorem not_grouped_starting {d : ThreadData} {pc : TrampolinePc} (h : s.phase i = .starting d pc)
    (hpc : pc ≠ .name) : ¬s.Grouped i := by
  simp only [Grouped, h]
  cases pc with
  | name => exact absurd rfl hpc
  | setpriority => exact id
  | policy => exact id

theorem grouped_running (h : s.phase i = .running) : s.Grouped i := by simp only [Grouped, h]

theorem grouped_afterPolicy {d : ThreadData} (h : s.phase i = d.afterPolicy) : s.Grouped i := by
  unfold ThreadData.afterPolicy at h
  split at h
  all_goals simp only [Grouped, h]

theorem firstPhase_cases (priority : ℤ) (name : Option CName) :
    firstPhase priority name = .starting ⟨priority, name⟩ .setpriority ∨
      firstPhase priority name = .running := by
  unfold firstPhase
  split
  · exact Or.inl rfl
  · exact Or.inr rfl

theorem SameAt.of_eq (hphase : t.phase k = s.phase k) (hnice : t.sched.nice k = s.sched.nice k)
    (hgroup : t.sched.group k = s.sched.group k) : SameAt s t k := by
  refine ⟨hnice, hgroup, ?_, ?_⟩
  · simp only [Grouped, hphase]
    exact id
  · simp only [Good, Sched.ConsistentAt, hphase, hnice, hgroup]
    exact id

theorem Inv.settled (h : s.Inv p) : s.Settled p := fun k hgrouped hbusy =>
  (good_grouped hgrouped).mp (h.good k hbusy)

theorem Inv.not_busy (h : s.Inv p) (hk : ¬s.Grouped k) : ¬s.Busy p k := fun hbusy =>
  hk (h.grouped k hbusy)

/-- A step of a thread that leaves the calls and their threads alone. -/
theorem Inv.touch (T : ℕ → Prop) (h : s.Inv p) (hcalls : t.calls = s.calls)
    (hfree : ∀ k, T k → ¬s.Busy p k) (hother : ∀ k, ¬T k → SameAt s t k)
    (hgood : ∀ k, T k → t.Good k) (hleader : p.haveGettid = false → t.phase p.pid = .running) :
    t.Inv p := by
  have hbusy : ∀ k, t.Busy p k ↔ s.Busy p k := fun k => by simp only [Busy, hcalls]
  have hsame : ∀ k, s.Busy p k → SameAt s t k := fun k hk => hother k fun hT => hfree k hT hk
  refine ⟨fun k hk => ?_, ?_, fun k hk => ?_, ?_, hleader⟩
  · by_cases hT : T k
    · exact hgood k hT
    · exact (hother k hT).good (h.good k ((hbusy k).not.mp hk))
  · intro i c stage hi
    rw [hcalls] at hi
    refine holds_congr (fun k hk => ?_) (h.stage hi)
    have hk' := hsame k ⟨i, c, stage, hi, hk⟩
    exact ⟨hk'.nice, hk'.group⟩
  · have hk' := (hbusy k).mp hk
    exact (hsame k hk').grouped (h.grouped k hk')
  · rw [hcalls]
    exact h.apart

/-- The step of one thread that no call in progress is about. -/
theorem Inv.touch_one (h : s.Inv p) (hcalls : t.calls = s.calls) (hfree : ¬s.Busy p i)
    (hphase : ∀ k, k ≠ i → t.phase k = s.phase k) (hsched : ∀ k, k ≠ i →
      t.sched.nice k = s.sched.nice k ∧ t.sched.group k = s.sched.group k)
    (hgood : t.Good i) (hleader : p.haveGettid = false → i ≠ p.pid) : t.Inv p := by
  refine h.touch (· = i) hcalls ?_ ?_ ?_ ?_
  · rintro k rfl
    exact hfree
  · intro k hk
    exact SameAt.of_eq (hphase k hk) (hsched k hk).1 (hsched k hk).2
  · rintro k rfl
    exact hgood
  · intro hpid
    exact (hphase _ (hleader hpid).symm).trans (h.leader hpid)

theorem Inv.ne_leader (h : s.Inv p) (hi : s.phase i ≠ .running) :
    p.haveGettid = false → i ≠ p.pid := by
  rintro hpid rfl
  exact hi (h.leader hpid)

theorem Inv.leader_update (h : s.Inv p) (hi : s.phase i ≠ .running) (phase : Phase)
    (hpid : p.haveGettid = false) : Function.update s.phase i phase p.pid = .running :=
  (Function.update_of_ne (h.ne_leader hi hpid).symm _ _).trans (h.leader hpid)

/-- A new thread has the nice value and the group of its parent. -/
theorem inv_create {parent child : ℕ} {priority : ℤ} {name : Option CName} (h : s.Inv p)
    (hfree : ¬s.Busy p parent) (ht : Step p s (.create parent child priority name true) t) :
    t.Inv p := by
  cases ht with
  | create hparent hidle hchild =>
    have hinherits := (good_running hparent).mp (h.good parent hfree)
    have habsent : ¬s.Grouped child := by simp only [Grouped, hchild, not_false_eq_true]
    refine h.touch_one rfl (h.not_busy habsent) (fun k hk => Function.update_of_ne hk _ _) ?_ ?_ ?_
    · intro k hk
      exact ⟨Function.update_of_ne hk _ _, Function.update_of_ne hk _ _⟩
    · rcases firstPhase_cases priority name with hphase | hphase
      all_goals
        simp only [Good, Function.update_self, hphase, Sched.ConsistentAt]
        exact hinherits
    · exact h.ne_leader (by simp [hchild])

theorem inv_setpriority {error : Option ℤ} (h : s.Inv p) (ht : Step p s (.setpriority i error) t) :
    t.Inv p := by
  cases ht with
  | @setpriority _ d _ hphase =>
    have hidle := h.not_busy (not_grouped_starting hphase (by simp))
    have hgood := h.good i hidle
    simp only [Good, hphase] at hgood
    refine h.touch_one rfl hidle (fun k hk => Function.update_of_ne hk _ _) ?_ ?_ ?_
    · intro k hk
      exact ⟨setpriority_of_ne hk, congrFun setpriority_group k⟩
    · simp only [Good, Function.update_self]
      cases error with
      | none => exact Function.update_self _ _ _
      | some e => exact hgood
    · exact h.ne_leader (by simp [hphase])

theorem inv_name {comm : List Byte} (h : s.Inv p) (ht : Step p s (.name i comm) t) : t.Inv p := by
  cases ht with
  | @name _ d _ _ hphase =>
    refine h.touch (fun _ => False) rfl (fun _ hk => hk.elim) ?_ (fun _ hk => hk.elim)
      (h.leader_update (by simp [hphase]) _)
    intro k _
    by_cases hk : k = i
    · subst hk
      refine ⟨rfl, rfl, fun _ => ?_, ?_⟩
      · simp only [Grouped, Function.update_self]
      · simp only [Good, hphase, Function.update_self]
        exact id
    · exact SameAt.of_eq (Function.update_of_ne hk _ _) rfl rfl

theorem inv_exit (h : s.Inv p) (hfree : ¬s.Busy p i) (hleader : p.haveGettid = false → i ≠ p.pid)
    (ht : Step p s (.exit i) t) : t.Inv p := by
  cases ht with
  | exit =>
    refine h.touch_one rfl hfree (fun k hk => Function.update_of_ne hk _ _) (fun _ _ => ⟨rfl, rfl⟩) ?_
      hleader
    simp only [Good, Function.update_self]

/-- The call begins; its threads stand well, and no other call is about them. -/
theorem inv_call (h : s.Inv p) (hfree : ∀ k, c.About p k → s.Grouped k ∧ ¬s.Busy p k)
    (ht : Step p s (.call c) t) : t.Inv p := by
  have hconsistent : ∀ k, c.About p k → s.sched.ConsistentAt k := fun k hk =>
    (good_grouped (hfree k hk).1).mp (h.good k (hfree k hk).2)
  cases ht with
  | call hself hidle hpolicy =>
    have hcalls : ∀ i d stage, Function.update s.calls c.self (some (c, .group)) i = some (d, stage) →
        s.calls i = some (d, stage) ∨ i = c.self ∧ d = c ∧ stage = .group := by
      intro i d stage hi
      by_cases his : i = c.self
      · rw [his, Function.update_self] at hi
        cases hi
        exact Or.inr ⟨his, rfl, rfl⟩
      · rw [Function.update_of_ne his] at hi
        exact Or.inl hi
    refine ⟨fun k hk => ?_, ?_, ?_, ?_, h.leader⟩
    · refine h.good k ?_
      rintro ⟨i, d, stage, hi, hd⟩
      refine hk ⟨i, d, stage, ?_, hd⟩
      have hne : i ≠ c.self := by
        rintro rfl
        rw [hidle] at hi
        cases hi
      exact (Function.update_of_ne hne _ _).trans hi
    · intro i d stage hi
      rcases hcalls i d stage hi with hi | ⟨rfl, rfl, rfl⟩
      · exact h.stage hi
      · exact ⟨hconsistent _ (Or.inl rfl), hconsistent _ (Or.inr rfl)⟩
    · rintro k ⟨i, d, stage, hi, hd⟩
      rcases hcalls i d stage hi with hi | ⟨rfl, rfl, rfl⟩
      · exact h.grouped k ⟨i, d, stage, hi, hd⟩
      · exact (hfree k hd).1
    · intro i j d d' stage stage' k hi hj hd hd'
      rcases hcalls i d stage hi with hold | ⟨hi', rfl, -⟩
      · rcases hcalls j d' stage' hj with hold' | ⟨-, rfl, -⟩
        · exact h.apart hold hold' hd hd'
        · exact absurd ⟨i, d, stage, hold, hd⟩ (hfree k hd').2
      · rcases hcalls j d' stage' hj with hold' | ⟨hj', -, -⟩
        · exact absurd ⟨j, d', stage', hold', hd'⟩ (hfree k hd).2
        · exact hi'.trans hj'.symm

/-- The calls in progress when one of them has gone on to the stage `o`, or has come to its end. -/
theorem calls_proceed {d : PriorityCall} {o : Option CallStage}
    (h : Function.update s.calls i (o.map (Prod.mk c)) j = some (d, stage)) :
    j = i ∧ d = c ∧ o = some stage ∨ j ≠ i ∧ s.calls j = some (d, stage) := by
  by_cases hj : j = i
  · rw [hj, Function.update_self] at h
    obtain ⟨next, ho, heq⟩ := Option.map_eq_some_iff.mp h
    cases heq
    exact Or.inl ⟨hj, rfl, ho⟩
  · exact Or.inr ⟨hj, (Function.update_of_ne hj _ _).symm.trans h⟩

theorem Step.proceed_eq (ht : Step p s (.proceed i) t) (hi : s.calls i = some (c, stage)) :
    t.sched = (s.sched.advance p c stage).1 ∧ t.phase = s.phase ∧
      t.calls = Function.update s.calls i ((s.sched.advance p c stage).2.map (Prod.mk c)) := by
  cases ht with
  | @proceed _ c' stage' hi' =>
    obtain ⟨rfl, rfl⟩ : c = c' ∧ stage = stage' := by simpa using hi.symm.trans hi'
    exact ⟨rfl, rfl, rfl⟩

/-- A call in progress goes on: what is left to show is that its threads stand well if it is at its
    end. -/
theorem inv_proceed (h : s.Inv p) (hi : s.calls i = some (c, stage)) (ht : Step p s (.proceed i) t)
    (hgood : ∀ k, c.About p k → ¬t.Busy p k → t.sched.ConsistentAt k) : t.Inv p := by
  obtain ⟨hsched, hphase, hcalls⟩ := ht.proceed_eq hi
  have hsame : ∀ k, ¬c.About p k → SameAt s t k := by
    intro k hk
    have hframe : t.sched.nice k = s.sched.nice k ∧ t.sched.group k = s.sched.group k := by
      rw [hsched]
      exact advance_of_not_about hk
    exact SameAt.of_eq (congrFun hphase k) hframe.1 hframe.2
  have hgrouped : ∀ k, s.Grouped k → t.Grouped k := by
    intro k hk
    rwa [Grouped, hphase]
  refine ⟨fun k hk => ?_, ?_, ?_, ?_, fun hpid => ?_⟩
  · by_cases habout : c.About p k
    · have hk' := hgrouped k (h.grouped k ⟨i, c, stage, hi, habout⟩)
      exact (good_grouped hk').mpr (hgood k habout hk)
    · refine (hsame k habout).good (h.good k ?_)
      rintro ⟨j, d, stage', hj, hd⟩
      refine hk ⟨j, d, stage', ?_, hd⟩
      rw [hcalls]
      refine (Function.update_of_ne ?_ _ _).trans hj
      rintro rfl
      obtain ⟨rfl, -⟩ : c = d ∧ stage = stage' := by simpa using hi.symm.trans hj
      exact habout hd
  · intro j d stage' hj
    rw [hcalls] at hj
    rcases calls_proceed hj with ⟨rfl, rfl, hnext⟩ | ⟨hne, hj'⟩
    · rw [hsched]
      exact advance_holds (h.stage hi) hnext
    · refine holds_congr (fun k hk => ?_) (h.stage hj')
      have hk' := hsame k fun habout => hne (h.apart hj' hi hk habout)
      exact ⟨hk'.nice, hk'.group⟩
  · rintro k ⟨j, d, stage', hj, hd⟩
    rw [hcalls] at hj
    rcases calls_proceed hj with ⟨-, rfl, -⟩ | ⟨-, hj'⟩
    · exact hgrouped k (h.grouped k ⟨i, d, stage, hi, hd⟩)
    · exact hgrouped k (h.grouped k ⟨j, d, stage', hj', hd⟩)
  · intro j j' d d' stage₁ stage₂ k hj hj' hd hd'
    rw [hcalls] at hj hj'
    rcases calls_proceed hj with ⟨hji, rfl, -⟩ | ⟨-, hold⟩
    · rcases calls_proceed hj' with ⟨hji', -, -⟩ | ⟨-, hold'⟩
      · exact hji.trans hji'.symm
      · exact hji.trans (h.apart hi hold' hd hd')
    · rcases calls_proceed hj' with ⟨hji', rfl, -⟩ | ⟨-, hold'⟩
      · exact (h.apart hold hi hd hd').trans hji'.symm
      · exact h.apart hold hold' hd hd'
  · rw [hphase]
    exact h.leader hpid

theorem inv_advance (h : s.Inv p) (hi : s.calls i = some (c, stage)) (hstage : stage ≠ .priority)
    (ht : Step p s (.proceed i) t) : t.Inv p := by
  refine inv_proceed h hi ht fun k hk hfree => absurd ?_ hfree
  obtain ⟨-, -, hcalls⟩ := ht.proceed_eq hi
  obtain ⟨next, hnext⟩ := Option.ne_none_iff_exists'.mp (mt advance_last hstage)
  refine ⟨i, c, next, ?_, hk⟩
  rw [hcalls, hnext]
  exact Function.update_self _ _ _

/-- The last system call of a call, behind which no call in progress is about its threads. -/
theorem settled_priority (h : s.Inv p) (hi : s.calls i = some (c, .priority))
    (ht : Step p s (.proceed i) t) :
    (t.Settled p ↔ c.KeepsSide p s.sched.nice) ∧ (c.KeepsSide p s.sched.nice → t.Inv p) := by
  obtain ⟨hsched, hphase, hcalls⟩ := ht.proceed_eq hi
  have hplaced : s.sched.Placed p c := h.stage hi
  have hfree : ∀ k, c.About p k → t.Grouped k ∧ ¬t.Busy p k := by
    intro k hk
    refine ⟨?_, ?_⟩
    · rw [Grouped, hphase]
      exact h.grouped k ⟨i, c, .priority, hi, hk⟩
    · rintro ⟨j, d, stage, hj, hd⟩
      rw [hcalls] at hj
      rcases calls_proceed hj with ⟨-, -, hnext⟩ | ⟨hne, hj'⟩
      · cases hnext
      · exact hne (h.apart hj' hi hd hk)
  rw [← hplaced.setpriority]
  change t.sched = (s.sched.setpriority c.thread c.pri c.priorityError).2 at hsched
  rw [← hsched]
  have hinv : t.sched.ConsistentAt (c.policyTid p) ∧ t.sched.ConsistentAt c.thread → t.Inv p := by
    rintro ⟨hpolicy, hthread⟩
    refine inv_proceed h hi ht fun k hk _ => ?_
    rcases hk with rfl | rfl
    · exact hpolicy
    · exact hthread
  refine ⟨⟨fun hsettled => ?_, fun hboth => (hinv hboth).settled⟩, hinv⟩
  obtain ⟨hgrouped, hidle⟩ := hfree _ (Or.inl rfl)
  obtain ⟨hgrouped', hidle'⟩ := hfree _ (Or.inr rfl)
  exact ⟨hsettled _ hgrouped hidle, hsettled _ hgrouped' hidle'⟩

theorem androidGetTid_cases (p : Process) (i : ℕ) :
    p.androidGetTid i = i ∨ p.haveGettid = false ∧ p.androidGetTid i = p.pid := by
  unfold Process.androidGetTid
  cases p.haveGettid
  · exact Or.inr ⟨rfl, rfl⟩
  · exact Or.inl rfl

/-- Behind the call for the group: the thread whose trampoline it is, and the one whose group is set. -/
theorem trampoline_consistent {d : ThreadData} {failed : Bool} (h : s.Inv p)
    (hphase : s.phase i = .starting d (.policy failed)) (hfree : ¬s.Busy p (p.androidGetTid i)) :
    (s.sched.trampolineGroup p i d.priority).ConsistentAt i ∧
      (s.sched.trampolineGroup p i d.priority).ConsistentAt (p.androidGetTid i) ↔
    s.Keeps p (.policy i) := by
  have hgood := h.good i (h.not_busy (not_grouped_starting hphase (by simp)))
  -- behind `setpriority`, the group is the one of the parent, which goes with the old nice value
  have hinherited : s.sched.ConsistentAt i ↔ (failed = false →
      (s.sched.group i = .background ↔ d.priority ≥ androidPriorityBackground)) := by
    cases failed with
    | true =>
      simp only [Good, hphase] at hgood
      simpa using hgood
    | false =>
      simp only [Good, hphase] at hgood
      simp [Sched.ConsistentAt, hgood]
  simp only [Keeps, hphase, ← hinherited, trampolineGroup_consistent]
  by_cases hself : p.androidGetTid i = i
  · have hboth : (s.sched.trampolineGroup p i d.priority).ConsistentAt (p.androidGetTid i) ↔ _ :=
      trampolineGroup_consistent
    rw [hself] at hboth ⊢
    rw [hboth]
    by_cases hgt : d.priority > androidPriorityAudio <;> simp [hgt]
  · have hown : (s.sched.trampolineGroup p i d.priority).ConsistentAt i ↔ s.sched.ConsistentAt i := by
      unfold Sched.ConsistentAt
      rw [trampolineGroup_nice, trampolineGroup_of_ne (Ne.symm hself)]
    obtain ⟨hpid, hleader⟩ := (androidGetTid_cases p i).resolve_left hself
    have hrunning := h.leader hpid
    rw [← hleader] at hrunning
    have hfirst := (good_running hrunning).mp (h.good _ hfree)
    rw [hown]
    by_cases hgt : d.priority > androidPriorityAudio
    · simp [hgt, hself, and_comm]
    · simp [hgt, hfirst]

/-- The group of a new thread, behind which it and the thread whose group was set are to stand well. -/
theorem settled_policy (h : s.Inv p) (hfree : ¬s.Busy p (p.androidGetTid i))
    (ht : Step p s (.policy i) t) :
    (t.Settled p ↔ s.Keeps p (.policy i)) ∧ (s.Keeps p (.policy i) → t.Inv p) := by
  cases ht with
  | @policy _ d failed hphase =>
    rw [← trampoline_consistent h hphase hfree]
    have hown : ¬s.Busy p i := h.not_busy (not_grouped_starting hphase (by simp))
    set t : Creation := { s with
      sched := s.sched.trampolineGroup p i d.priority
      phase := Function.update s.phase i d.afterPolicy } with ht
    have hleader : p.haveGettid = false → t.phase p.pid = .running :=
      h.leader_update (by simp [hphase]) _
    have hgrouped : t.Grouped i := grouped_afterPolicy (Function.update_self _ _ _)
    have hgrouped' : t.Grouped (p.androidGetTid i) := by
      rcases androidGetTid_cases p i with hself | ⟨hpid, heq⟩
      · rwa [hself]
      · rw [heq]
        exact grouped_running (hleader hpid)
    have hinv : t.sched.ConsistentAt i ∧ t.sched.ConsistentAt (p.androidGetTid i) → t.Inv p := by
      rintro ⟨hconsistent, hconsistent'⟩
      refine h.touch (fun k => k = i ∨ k = p.androidGetTid i) rfl ?_ ?_ ?_ hleader
      · rintro k (rfl | rfl)
        · exact hown
        · exact hfree
      · intro k hk
        obtain ⟨hk, hk'⟩ := not_or.mp hk
        exact SameAt.of_eq (Function.update_of_ne hk _ _) (congrFun trampolineGroup_nice k)
          (trampolineGroup_of_ne hk')
      · rintro k (rfl | rfl)
        · exact (good_grouped hgrouped).mpr hconsistent
        · exact (good_grouped hgrouped').mpr hconsistent'
    refine ⟨⟨fun hsettled => ?_, fun hboth => (hinv hboth).settled⟩, hinv⟩
    exact ⟨hsettled _ hgrouped hown, hsettled _ hgrouped' hfree⟩

/-- From a state in which all threads stand well, the next state is settled exactly if nothing goes
    wrong in the step, and then they all stand well again. -/
theorem settled_iff (h : Step p s a t) (hs : s.Inv p) (hfree : s.Undisturbed p a) :
    (t.Settled p ↔ s.Keeps p a) ∧ (s.Keeps p a → t.Inv p) := by
  have hkept : t.Inv p → s.Keeps p a → (t.Settled p ↔ s.Keeps p a) ∧ (s.Keeps p a → t.Inv p) :=
    fun hinv hkeeps => ⟨iff_of_true hinv.settled hkeeps, fun _ => hinv⟩
  cases a with
  | create parent child priority name created =>
    cases created with
    | true => exact hkept (inv_create hs hfree h) trivial
    | false =>
      cases h
      exact hkept hs trivial
  | setpriority i error => exact hkept (inv_setpriority hs h) trivial
  | policy i => exact settled_policy hs hfree h
  | name i comm => exact hkept (inv_name hs h) trivial
  | call c => exact hkept (inv_call hs hfree h) trivial
  | proceed i =>
    obtain ⟨c, stage, hi⟩ : ∃ c stage, s.calls i = some (c, stage) := by
      cases h with
      | proceed hi => exact ⟨_, _, hi⟩
    simp only [Keeps, hi] at hkept ⊢
    cases stage with
    | group => exact hkept (inv_advance hs hi (by decide) h) trivial
    | foreground => exact hkept (inv_advance hs hi (by decide) h) trivial
    | priority => exact settled_priority hs hi h
  | exit i => exact hkept (inv_exit hs hfree.1 hfree.2 h) trivial

/-! ### Whole runs -/

/-- Only the first thread of the process runs. -/
def start (p : Process) (sched : Sched) (comm : List Byte) : Creation where
  sched := sched
  phase := Function.update (fun _ => .absent) p.pid .running
  comm := fun _ => comm
  calls := fun _ => none

theorem inv_start {comm : List Byte} (h : sched.ConsistentAt p.pid) : (start p sched comm).Inv p := by
  have hcalls : ∀ {i : ℕ} {x : PriorityCall × CallStage}, (start p sched comm).calls i ≠ some x :=
    nofun
  refine ⟨fun k _ => ?_, fun hi => absurd hi hcalls, ?_, fun hi => absurd hi hcalls, fun _ => ?_⟩
  · by_cases hk : k = p.pid
    · have hphase : (start p sched comm).phase k = .running := by simp [start, hk]
      rw [good_running hphase, hk]
      exact h
    · have hphase : (start p sched comm).phase k = .absent := by simp [start, hk]
      simp only [Good, hphase]
  · rintro k ⟨i, c, stage, hi, -⟩
    exact absurd hi hcalls
  · simp [start]

/-- In a run in which no two calls meet, the threads whose groups are set, and that no call in progress
    is about, are in the groups of their nice values throughout exactly if no trampoline and no call
    goes wrong. -/
theorem creation_settled_iff {comm : List Byte} {tr : List (Taken Creation CreationAct)}
    (hrun : Run (Step p) (start p sched comm) tr s) (h₀ : sched.ConsistentAt p.pid)
    (hfree : ∀ x ∈ tr, x.pre.Undisturbed p x.act) :
    (∀ x ∈ tr, x.post.Settled p) ↔ ∀ x ∈ tr, x.pre.Keeps p x.act := by
  refine hrun.forall_iff (I := Inv p) (inv_start h₀) ?_ ?_
  · intro x hx hstep hpre
    exact (settled_iff hstep hpre (hfree x hx)).1
  · intro x hx hstep hpre hkeeps
    exact (settled_iff hstep hpre (hfree x hx)).2 hkeeps

theorem step_proceed {o : Option CallStage} (hi : s.calls i = some (c, stage))
    (hadvance : s.sched.advance p c stage = (sched', o)) : Step p s (.proceed i)
      { s with sched := sched', calls := Function.update s.calls i (o.map (Prod.mk c)) } := by
  have hstep := Step.proceed (p := p) hi
  rwa [hadvance] at hstep

/-- The system calls of a call up to `setpriority`, in a row. -/
theorem call_group (hself : s.phase c.self = .running) (hidle : s.calls c.self = none)
    (hpolicy : c.policyError = none) : ∃ tr, Run (Step p) s tr
      { s with
        sched := { s.sched with group := s.sched.groupAfter p c }
        calls := Function.update s.calls c.self (some (c, .priority)) } ∧
      ∀ x ∈ tr, x.act = .call c ∨ x.act = .proceed c.self := by
  have h₀ : Run (Step p) s [] s := Run.nil
  have h₁ := h₀.snoc (Step.call hself hidle hpolicy)
  have hcalls := Function.update_self c.self (some (c, CallStage.group)) s.calls
  unfold Sched.groupAfter
  by_cases hpri : c.pri ≥ androidPriorityBackground
  · have hgroup : s.sched.advance p c .group = ({ s.sched with
        group := Function.update s.sched.group (c.policyTid p) .background }, some .priority) := by
      simp [Sched.advance, gDoSchedulingGroup, hpri, Sched.setSchedPolicy]
    have h₂ := h₁.snoc (step_proceed hcalls hgroup)
    simp only [Function.update_idem] at h₂
    rw [if_pos hpri]
    exact ⟨_, h₂, by simp⟩
  · rw [if_neg hpri]
    by_cases hnice : s.sched.nice c.thread ≥ androidPriorityBackground
    · have hgroup : s.sched.advance p c .group = (s.sched, some .foreground) := by
        simp [Sched.advance, gDoSchedulingGroup, hpri, hnice]
      have h₂ := h₁.snoc (step_proceed hcalls hgroup)
      simp only [Function.update_idem] at h₂
      have h₃ := h₂.snoc (step_proceed (p := p) (Function.update_self _ _ _) rfl)
      simp only [Function.update_idem] at h₃
      rw [if_pos hnice]
      exact ⟨_, h₃, by simp⟩
    · have hgroup : s.sched.advance p c .group = (s.sched, some .priority) := by
        simp [Sched.advance, gDoSchedulingGroup, hpri, hnice]
      have h₂ := h₁.snoc (step_proceed hcalls hgroup)
      simp only [Function.update_idem] at h₂
      rw [if_neg hnice]
      exact ⟨_, h₂, by simp⟩

/-- A call whose system calls follow each other is `androidSetThreadPriority`. -/
theorem call_alone (hself : s.phase c.self = .running) (hidle : s.calls c.self = none)
    (hpolicy : c.policyError = none) : ∃ tr t, Run (Step p) s tr t ∧
    (∀ x ∈ tr, x.act = .call c ∨ x.act = .proceed c.self) ∧ t.phase = s.phase ∧ t.calls = s.calls ∧
    t.sched.nice = (s.sched.androidSetThreadPriority p c).2.nice ∧
    t.sched.group = (s.sched.androidSetThreadPriority p c).2.group := by
  obtain ⟨tr, hrun, hacts⟩ := call_group (p := p) hself hidle hpolicy
  have hlast := hrun.snoc (step_proceed (p := p) (Function.update_self _ _ _) rfl)
  simp only [Function.update_idem, Option.map_none, ← hidle, Function.update_eq_self] at hlast
  refine ⟨_, _, hlast, ?_, rfl, rfl, ?_, ?_⟩
  · intro x hx
    rcases List.mem_append.mp hx with hx | hx
    · exact hacts x hx
    · rw [List.mem_singleton] at hx
      subst hx
      exact Or.inr rfl
  all_goals
    cases hpri : c.priorityError with
    | none => rw [Sched.call_succeeds hpolicy hpri]; rfl
    | some e => rw [Sched.call_fails hpolicy hpri]; rfl

theorem not_busy_of_idle (h : s.calls = fun _ => none) : ¬s.Busy p k := by
  rintro ⟨i, c, stage, hi, -⟩
  rw [h] at hi
  cases hi

theorem not_busy_of_one (h : s.calls = Function.update (fun _ => none) i (some (c, stage)))
    (hk : ¬c.About p k) : ¬s.Busy p k := by
  rintro ⟨j, d, stage', hj, hd⟩
  rw [h] at hj
  by_cases hji : j = i
  · rw [hji, Function.update_self] at hj
    cases hj
    exact hk hd
  · rw [Function.update_of_ne hji] at hj
    cases hj

/-- The thread 1 creates the thread 2 for the background, which sets its nice value and its group. Then 1
    takes it to the foreground, and meanwhile 2 lowers the priority of 1. -/
theorem creation_settled_run : ∃ tr s, Run (Step ⟨true, 1⟩) (start ⟨true, 1⟩ Sched.allNormal []) tr s ∧
    tr.map Taken.act = [.create 1 2 10 none true, .setpriority 2 none, .policy 2,
      .call ⟨1, 2, 0, none, none⟩, .call ⟨2, 1, 5, none, none⟩, .proceed 1, .proceed 2, .proceed 1,
      .proceed 2, .proceed 1] ∧
    s.sched.nice 1 = 5 ∧ s.sched.nice 2 = 0 ∧ s.sched.group 2 = .foreground ∧
    ∀ x ∈ tr, x.post.Settled ⟨true, 1⟩ := by
  have h₀ : Run (Step ⟨true, 1⟩) (start ⟨true, 1⟩ Sched.allNormal []) [] _ := Run.nil
  have h₁ := h₀.snoc (a := .create 1 2 10 none true) (Step.create rfl rfl rfl)
  have h₂ := h₁.snoc (a := .setpriority 2 none) (Step.setpriority rfl)
  have h₃ := h₂.snoc (a := .policy 2) (Step.policy rfl)
  have h₄ := h₃.snoc (a := .call ⟨1, 2, 0, none, none⟩) (Step.call rfl rfl rfl)
  have h₅ := h₄.snoc (a := .call ⟨2, 1, 5, none, none⟩) (Step.call rfl rfl rfl)
  have h₆ := h₅.snoc (a := .proceed 1) (Step.proceed rfl)
  have h₇ := h₆.snoc (a := .proceed 2) (Step.proceed rfl)
  have h₈ := h₇.snoc (a := .proceed 1) (Step.proceed rfl)
  have h₉ := h₈.snoc (a := .proceed 2) (Step.proceed rfl)
  have h₁₀ := h₉.snoc (a := .proceed 1) (Step.proceed rfl)
  refine ⟨_, _, h₁₀, rfl, rfl, rfl, rfl,
    (creation_settled_iff h₁₀ (Sched.allNormal_consistent 1) ?_).mpr ?_⟩
  all_goals simp only [List.nil_append, List.cons_append, List.forall_mem_cons]
  · refine ⟨not_busy_of_idle rfl, trivial, not_busy_of_idle rfl, ?_, ?_, trivial, trivial, trivial,
      trivial, trivial, by simp⟩
    · rintro k (rfl | rfl)
      all_goals exact ⟨trivial, not_busy_of_idle rfl⟩
    · rintro k (rfl | rfl)
      all_goals
        refine ⟨trivial, not_busy_of_one rfl ?_⟩
        simp [PriorityCall.About, PriorityCall.policyTid, PriorityCall.thread]
  · refine ⟨trivial, trivial, ?_, trivial, trivial, trivial, trivial, trivial, ?_, ?_, by simp⟩
    · refine ⟨fun _ => by decide, fun hother => absurd (hother (by decide)) (by decide)⟩
    all_goals
      change PriorityCall.KeepsSide _ _ _
      decide

end Creation

end ThreadManager
