import ThreadManager.Schemes.Decimal
import ThreadManager.Thread.CgroupFile
import ThreadManager.Thread.Priority

/-! sched_policy.c, in the build with the real implementation: `set_sched_policy`, `get_sched_policy` and
    what they call.

    A policy is set by writing the thread id in decimal to the tasks file of a group, and read back from
    `/proc/<tid>/cgroup`; where there are no such files, both go through the scheduler of the thread.
    Which of the two it is, and the two descriptors, is found out once. Below them is the kernel: the
    threads with their group and their scheduler, and the tasks files that are open. Whether the build
    defines `HAVE_GETTID` is a parameter. -/

namespace ThreadManager
open Schemes

/-! ### The kernel -/

/-- The path of a group, without a byte that would end it in the file. -/
def GroupPath : Type := { path : List Byte // newline ∉ path ∧ 0 ∉ path }

/-- `"apps"`. -/
def apps : List Byte := ascii ['a', 'p', 'p', 's']

/-- `"apps/bg_non_interactive"`. -/
def appsBg : List Byte := apps ++ slash ::
  ascii ['b', 'g', '_', 'n', 'o', 'n', '_', 'i', 'n', 't', 'e', 'r', 'a', 'c', 't', 'i', 'v', 'e']

def GroupPath.fg : GroupPath := ⟨apps, by decide, by decide⟩

def GroupPath.bg : GroupPath := ⟨appsBg, by decide, by decide⟩

/-- A thread: its group for cpu, the number of that hierarchy, the lines before and after it in
    `/proc/<tid>/cgroup`, and its scheduler. -/
structure KernelThread where
  above : List CgroupLine
  hierarchy : List Byte
  group : GroupPath
  below : List CgroupLine
  scheduler : ℕ
  above_ok : ∀ l ∈ above, l.subsys ≠ cpu
  hierarchy_ok : colon ∉ hierarchy ∧ newline ∉ hierarchy ∧ 0 ∉ hierarchy

theorem cpu_clean : colon ∉ cpu ∧ newline ∉ cpu ∧ 0 ∉ cpu := by decide

namespace KernelThread

/-- The line for cpu. -/
def line (t : KernelThread) : CgroupLine where
  id := t.hierarchy
  subsys := cpu
  path := t.group.val
  id_clean := t.hierarchy_ok
  subsys_clean := cpu_clean
  path_clean := t.group.property

def lines (t : KernelThread) : List CgroupLine := t.above ++ t.line :: t.below

/-- The lines in front of the cpu line fit `lineBuf`, and in the cpu line there is room behind the number
    of the hierarchy for as much of the path as `grpBuf` takes. -/
structure Fits (t : KernelThread) : Prop where
  above : ∀ l ∈ t.above, l.Fits
  hierarchy : t.hierarchy.length ≤ 216

theorem cpuLine_lines (t : KernelThread) : cpuLine t.lines = some t.line := by
  have hnone : t.above.find? (fun l => decide (l.subsys = cpu)) = none := by
    simp only [List.find?_eq_none, decide_eq_true_eq]
    exact t.above_ok
  rw [cpuLine, lines, List.find?_append, hnone, Option.none_or, List.find?_cons_of_pos]
  simp [line]

theorem linesBefore_lines (t : KernelThread) : linesBefore t.lines = t.above := by
  rw [linesBefore, lines, List.takeWhile_append_of_pos (by simpa using t.above_ok),
    List.takeWhile_cons_of_neg (by simp [line]), List.append_nil]

end KernelThread

/-- `errno` values. -/
def enoent : ℤ := 2

def esrch : ℤ := 3

def ebadf : ℤ := 9

def einval : ℤ := 22

def erange : ℤ := 34

/-- `SCHED_NORMAL` and `SCHED_BATCH`. -/
def schedNormal : ℕ := 0

def schedBatch : ℕ := 3

/-- The statics of sched_policy.c; `theOnce` says whether `the_once` has run. -/
structure PolicyStatics where
  theOnce : Bool
  sysSupportsSchedgroups : ℤ
  bgCgroupFd : ℤ
  fgCgroupFd : ℤ
  deriving DecidableEq, Repr

/-- What `__initialize` comes upon: the results of `access` and of the two `open`s, or the `errno` they
    fail with. Two files that are open have two descriptors. -/
structure Cpuctl where
  access : Except ℤ Unit
  fgTasks : Except ℤ ℕ
  bgTasks : Except ℤ ℕ
  distinct : ∀ fd, fgTasks = .ok fd → bgTasks ≠ .ok fd

/-- The statics, and the kernel: the group behind each tasks file that is open, the threads, and
    `errno` of the caller. -/
structure PolicySys where
  statics : PolicyStatics
  files : ℤ → Option GroupPath
  threads : ℤ → Option KernelThread
  errno : ℤ

namespace PolicySys

/-- Nothing was called. -/
def start (threads : ℤ → Option KernelThread) (errno : ℤ) : PolicySys :=
  ⟨⟨false, -1, -1, -1⟩, fun _ => none, threads, errno⟩

/-- The content of `/proc/<tid>/cgroup`. -/
def proc (s : PolicySys) (tid : ℤ) : Option (List Byte) :=
  (s.threads tid).map fun t => cgroupFile t.lines

/-- `write` to a tasks file: the thread whose id is written goes to the group, unless the kernel refuses
    with an `errno`. -/
def write (s : PolicySys) (fd : ℤ) (text : List Byte) (refused : Option ℤ) : ℤ × PolicySys :=
  match s.files fd with
  | none => (-1, { s with errno := ebadf })
  | some group => match parseDecimal text with
    | none => (-1, { s with errno := einval })
    | some tid => match s.threads tid, refused with
      | none, _ => (-1, { s with errno := esrch })
      | some _, some errno => (-1, { s with errno })
      | some t, none =>
        (text.length, { s with threads := Function.update s.threads tid (some { t with group }) })

/-- The thread that a system call of the scheduler is about: thread id 0 is the caller. -/
def kernelTid (self tid : ℤ) : ℤ := if tid = 0 then self else tid

/-- `sched_setscheduler`, whose result is not looked at. -/
def schedSetscheduler (s : PolicySys) (self tid : ℤ) (scheduler : ℕ) (refused : Option ℤ) :
    PolicySys :=
  let tid := kernelTid self tid
  match s.threads tid, refused with
  | none, _ => { s with errno := esrch }
  | some _, some errno => { s with errno }
  | some t, none => { s with threads := Function.update s.threads tid (some { t with scheduler }) }

/-- `sched_getscheduler`. -/
def schedGetscheduler (s : PolicySys) (self tid : ℤ) : ℤ × PolicySys :=
  match s.threads (kernelTid self tid) with
  | none => (-1, { s with errno := esrch })
  | some t => (t.scheduler, s)

/-! ### The code -/

/-- An `open` of the tasks file of a group. -/
def openTasks (s : PolicySys) (group : GroupPath) : Except ℤ ℕ → ℤ × PolicySys
  | .error errno => (-1, { s with errno })
  | .ok fd => (fd, { s with files := Function.update s.files fd (some group) })

/-- `__initialize`. -/
def sysInitialize (env : Cpuctl) (s : PolicySys) : PolicySys :=
  match env.access with
  | .ok () =>
    let s := { s with statics := { s.statics with sysSupportsSchedgroups := 1 } }
    let (fd, s) := s.openTasks .fg env.fgTasks
    let s := { s with statics := { s.statics with fgCgroupFd := fd } }
    let (fd, s) := s.openTasks .bg env.bgTasks
    { s with statics := { s.statics with bgCgroupFd := fd } }
  | .error errno =>
    { s with statics := { s.statics with sysSupportsSchedgroups := 0 }, errno }

/-- `pthread_once(&the_once, __initialize)`. -/
def pthreadOnce (env : Cpuctl) (s : PolicySys) : PolicySys :=
  if s.statics.theOnce then s
  else
    let s := s.sysInitialize env
    { s with statics := { s.statics with theOnce := true } }

end PolicySys

/-- The values of the enumeration. -/
def SchedPolicy.code : SchedPolicy → ℤ
  | .background => 0
  | .foreground => 1
  | .system => 2
  | .audioApp => 3
  | .audioSys => 4

/-- `SP_DEFAULT`. -/
def spDefault : ℤ := -1

/-- `SP_SYSTEM_DEFAULT`. -/
def spSystemDefault : ℤ := SchedPolicy.foreground.code

/-- The thread id that a call goes on with: with `HAVE_GETTID`, thread id 0 is the caller. -/
def getTid (haveGettid : Bool) (self tid : ℤ) : ℤ := if haveGettid ∧ tid = 0 then self else tid

/-- `_policy`. -/
def mapDefault (p : ℤ) : ℤ := if p = spDefault then spSystemDefault else p

/-- The size of `text`. -/
def textSize : ℕ := 22

/-- A pass of the loop that writes the thread id, on `text`, `ptr` and `tid`. -/
def itoaPass : Chars × ℕ × ℤ → Outcome MemFault ((Chars × ℕ × ℤ) ⊕ (Chars × ℕ))
  | (text, ptr, tid) =>
    if tid > 0 then
      if ptr = 0 then .fault .outOfBounds
      else do
        let text ← text.write (ptr - 1) (digitByte (tid.tmod 10).toNat)
        return .inl (text, ptr - 1, tid.tdiv 10)
    else .done (.inr (text, ptr))

/-- What `add_tid_to_cgroup` writes to the file. -/
def tidText (n : ℕ) (tid : ℤ) : Outcome MemFault (List Byte) := do
  let last := textSize - 1
  let text ← Chars.write (List.replicate textSize none) last 0
  let (text, ptr) ← loop itoaPass n (text, last, tid)
  text.read ptr (last - ptr)

/-- The size of `grpBuf`. -/
def grpBufSize : ℕ := 32

/-- The tests of `get_sched_policy` on the group. -/
def groupPolicy (grpBuf : Chars) : Outcome MemFault (Option SchedPolicy) := do
  let first ← grpBuf.read 0 1
  if first = [0] then return some .system
  else
    if (← grpBuf.strcmp 0 appsBg) = .eq then return some .background
    else if (← grpBuf.strcmp 0 apps) = .eq then return some .foreground
    else return none

namespace PolicySys

/-- The `switch` of `add_tid_to_cgroup`. -/
def cgroupFd (s : PolicySys) (policy : ℤ) : ℤ :=
  if policy = SchedPolicy.background.code then s.statics.bgCgroupFd
  else if policy = SchedPolicy.foreground.code ∨ policy = SchedPolicy.audioApp.code ∨
    policy = SchedPolicy.audioSys.code then s.statics.fgCgroupFd
  else -1

/-- `add_tid_to_cgroup`. -/
def addTidToCgroup (n : ℕ) (s : PolicySys) (tid policy : ℤ) (refused : Option ℤ) :
    Outcome MemFault (ℤ × PolicySys) := do
  let fd := s.cgroupFd policy
  if fd < 0 then return (-1, s)
  else
    let text ← tidText n tid
    let (r, s) := s.write fd text refused
    if r < 0 then
      -- a thread that is exiting is no error
      if s.errno = esrch then return (0, s) else return (-1, s)
    else return (0, s)

/-- `set_sched_policy`, called by the thread `self`. -/
def setSchedPolicy (haveGettid : Bool) (n : ℕ) (s : PolicySys) (env : Cpuctl) (self tid policy : ℤ)
    (refused : Option ℤ) : Outcome MemFault (ℤ × PolicySys) :=
  let tid := getTid haveGettid self tid
  let policy := mapDefault policy
  let s := s.pthreadOnce env
  if s.statics.sysSupportsSchedgroups ≠ 0 then do
    let (r, s) ← s.addTidToCgroup n tid policy refused
    if r ≠ 0 ∧ s.errno ≠ esrch ∧ s.errno ≠ enoent then return (-s.errno, s) else return (0, s)
  else
    let scheduler := if policy = SchedPolicy.background.code then schedBatch else schedNormal
    return (0, s.schedSetscheduler self tid scheduler refused)

/-- The return of a policy, or of ERANGE. -/
def reportPolicy (s : PolicySys) : Option SchedPolicy → (ℤ × Option ℤ) × PolicySys
  | some policy => ((0, some policy.code), s)
  | none => ((-1, none), { s with errno := erange })

/-- `get_sched_policy`, called by the thread `self`, with what it writes to `*policy`. -/
def getSchedPolicy (haveGettid : Bool) (n : ℕ) (s : PolicySys) (env : Cpuctl) (self tid : ℤ) :
    Outcome MemFault ((ℤ × Option ℤ) × PolicySys) :=
  let tid := getTid haveGettid self tid
  let s := s.pthreadOnce env
  if s.statics.sysSupportsSchedgroups ≠ 0 then do
    let (r, grpBuf) ← getSchedulerGroup n s.proc tid (List.replicate grpBufSize none) grpBufSize
    if r < 0 then return ((-1, none), s) else return s.reportPolicy (← groupPolicy grpBuf)
  else
    let (rc, s) := s.schedGetscheduler self tid
    if rc < 0 then .done ((-1, none), s)
    else if rc = schedNormal then .done (s.reportPolicy (some .foreground))
    else if rc = schedBatch then .done (s.reportPolicy (some .background))
    else .done (s.reportPolicy none)

end PolicySys

/-! ### The thread id in decimal -/

section Text

variable {n ptr : ℕ} {tid : ℤ} {text : Chars}

/-- Before a pass: the digits still to be written fit in front of `ptr`, and with those that stand there
    they are the digits of `tid₀`. -/
def Digits (tid₀ : ℕ) (k : ℕ) : Chars × ℕ × ℤ → Prop
  | (text, ptr, tid) => text.length = textSize ∧ 0 ≤ tid ∧ k = (decimal tid.toNat).length ∧ k ≤ ptr ∧
    ∃ s, s.length + ptr = textSize - 1 ∧ text.drop ptr = s.map some ++ [some 0] ∧
      decimal tid.toNat ++ s = decimal tid₀

theorem itoaPass_end : itoaPass (text, ptr, 0) = .done (.inr (text, ptr)) := rfl

theorem itoaPass_digit {t : ℕ} (ht : 0 < t) (hptr : ptr < text.length) :
    itoaPass (text, ptr + 1, t) =
      .done (.inl (text.set ptr (some (digitByte (t % 10))), ptr, (t / 10 : ℕ))) := by
  have hpos : (t : ℤ) > 0 := by omega
  have hdiv : (t : ℤ).tdiv 10 = (t / 10 : ℕ) := (Int.ofNat_tdiv t 10).symm
  have hmod : ((t : ℤ).tmod 10).toNat = t % 10 := rfl
  simp only [itoaPass, if_pos hpos, Nat.add_sub_cancel, Chars.write, if_pos hptr, Outcome.done_bind,
    Outcome.pure_eq, hdiv, hmod]
  rw [if_neg (Nat.succ_ne_zero ptr)]

theorem Digits.pass {tid₀ k t : ℕ} (h : Digits tid₀ k (text, ptr, t)) (ht : 0 < t) :
    ∃ s, itoaPass (text, ptr, t) = .done (.inl s) ∧ ∃ j < k, Digits tid₀ j s := by
  obtain ⟨hlen, -, rfl, hk, s, hs, hdrop, hdigits⟩ := h
  simp only [Int.toNat_natCast] at hk hdigits
  rw [decimal_of_pos ht, List.length_append, List.length_singleton] at hk
  obtain ⟨ptr, rfl⟩ := Nat.exists_eq_add_of_le' (Nat.one_le_of_lt hk)
  have hptr : ptr < text.length := by rw [hlen]; unfold textSize at hs ⊢; omega
  refine ⟨_, itoaPass_digit ht hptr, _, ?_, ?_, ?_, rfl, ?_, digitByte (t % 10) :: s, ?_, ?_, ?_⟩
  · rw [Int.toNat_natCast, Int.toNat_natCast, decimal_of_pos ht, List.length_append]
    exact Nat.lt_succ_self _
  · rw [List.length_set, hlen]
  · omega
  · rw [Int.toNat_natCast]
    omega
  · rw [List.length_cons]
    omega
  · rw [List.drop_eq_getElem_cons (by simpa using hptr), List.getElem_set_self,
      List.drop_set_of_lt (Nat.lt_succ_self ptr), hdrop]
    rfl
  · rw [← hdigits, decimal_of_pos ht, List.append_assoc]
    rfl

/-- `text` before the loop. -/
def emptyText : Chars := (List.replicate textSize none).set 21 (some 0)

/-- After the loop: the digits stand from `ptr` to the end. -/
def Written (tid₀ : ℕ) (o : Outcome MemFault (Chars × ℕ)) : Prop :=
  ∃ text ptr, o = .done (text, ptr) ∧ (decimal tid₀).length + ptr = textSize - 1 ∧
    text.drop ptr = (decimal tid₀).map some ++ [some 0]

/-- For a positive thread id with at most 21 digits the loop stays in `text`. -/
theorem itoa_loop (hpos : 0 < tid) (hlen : (decimal tid.toNat).length ≤ 21)
    (hn : (decimal tid.toNat).length < n) :
    Written tid.toNat (loop itoaPass n (emptyText, textSize - 1, tid)) := by
  have hstart : Digits tid.toNat (decimal tid.toNat).length (emptyText, textSize - 1, tid) :=
    ⟨by simp [emptyText], hpos.le, rfl, hlen, [], rfl, rfl, by simp⟩
  refine loop_total (R := Digits tid.toNat) ?_ n _ _ hstart hn
  rintro k ⟨text, ptr, t⟩ h
  obtain ⟨t, rfl⟩ := Int.eq_ofNat_of_zero_le h.2.1
  rcases Nat.eq_zero_or_pos t with rfl | ht
  · obtain ⟨-, -, -, -, s, hs, hdrop, hdigits⟩ := h
    rw [Nat.cast_zero, Int.toNat_zero, decimal_zero, List.nil_append] at hdigits
    subst hdigits
    exact Or.inr (Or.inl ⟨_, itoaPass_end, text, ptr, rfl, hs, hdrop⟩)
  · exact Or.inl (h.pass ht)

theorem tidText_eq (hpos : 0 < tid) (hlt : tid < 10 ^ 21) (hn : (decimal tid.toNat).length < n) :
    tidText n tid = .done (decimal tid.toNat) := by
  have hlen : (decimal tid.toNat).length ≤ 21 := length_decimal_le (by omega)
  obtain ⟨text, ptr, hrun, hs, hdrop⟩ := itoa_loop hpos hlen hn
  have hwrite : Chars.write (List.replicate textSize none) (textSize - 1) 0 = .done emptyText := rfl
  simp only [tidText, hwrite, Outcome.done_bind, hrun, Chars.read, hdrop]
  rw [show textSize - 1 - ptr = (decimal tid.toNat).length by omega]
  exact Chars.readCells_map

/-- The id of a thread, written by `add_tid_to_cgroup` and read by the kernel. -/
theorem tidText_round_trip (hpos : 0 < tid) (hint : tid < 2 ^ 31) (hn : 10 < n) :
    ∃ text, tidText n tid = .done text ∧ text.length ≤ 10 ∧ parseDecimal text = some tid.toNat := by
  have hlen : (decimal tid.toNat).length ≤ 10 := length_decimal_le (by omega)
  exact ⟨_, tidText_eq hpos (by omega) (by omega), hlen, parseDecimal_decimal (by omega)⟩

/-- The largest thread id. -/
theorem tidText_round_trip_max : ∃ text, tidText 11 2147483647 = .done text ∧ text.length ≤ 10 ∧
    parseDecimal text = some (2147483647 : ℤ).toNat :=
  tidText_round_trip (by decide) (by decide) (by decide)

end Text

/-! ### The group of a thread -/

/-- What `getSchedulerGroup` takes for the path: all of it, or what comes before the byte in front of
    the first colon. -/
def shownPath (path : List Byte) : List Byte := path.take ((path ++ [newline]).idxOf colon - 1)

/-- The policy of a group. -/
def policyOf (path : List Byte) : Option SchedPolicy :=
  if path = [] then some .system
  else if path = appsBg then some .background
  else if path = apps then some .foreground
  else none

/-- The policy of a scheduler. -/
def schedulerPolicy (scheduler : ℕ) : Option SchedPolicy :=
  if scheduler = schedNormal then some .foreground
  else if scheduler = schedBatch then some .background
  else none

section Group

variable {n bufLen : ℕ} {m buf : Chars} {path s : List Byte} {tid : ℤ}
  {proc : ℤ → Option (List Byte)} {t : KernelThread}

/-- The tests on the buffer, for the string that is in it. -/
theorem groupPolicy_str (h : CStr m 0 s) : groupPolicy m = .done (policyOf s) := by
  obtain ⟨o, ho, hbg⟩ := h.strcmp (t := appsBg) (by decide)
  obtain ⟨o', ho', hfg⟩ := h.strcmp (t := apps) (by decide)
  obtain ⟨hs, rest, hrest⟩ := h
  have hread : m.read 0 1 = .done [s.headD 0] := by
    rw [Chars.read, hrest]
    cases s <;> rfl
  have hnil : s.headD 0 = 0 ↔ s = [] := by
    cases s with
    | nil => simp
    | cons b s => simpa using (List.ne_and_not_mem_of_not_mem_cons hs).1.symm
  simp only [groupPolicy, hread, ho, ho', Outcome.done_bind, List.cons.injEq, and_true, hnil, hbg, hfg,
    policyOf, Outcome.pure_eq]
  split
  · rfl
  · split
    · rfl
    · split <;> rfl

/-- The buffer cuts the path, but far behind the names it is compared with. -/
theorem policyOf_take (hn : appsBg.length < n) : policyOf (path.take n) = policyOf path := by
  have hcut : ∀ name : List Byte, name.length < n → (path.take n = name ↔ path = name) := by
    intro name hname
    constructor
    · rintro rfl
      rw [List.length_take] at hname
      rw [List.take_of_length_le (by omega)]
    · rintro rfl
      exact List.take_of_length_le hname.le
  have happs : apps.length < n := lt_trans (by decide) hn
  simp only [policyOf, hcut [] (Nat.zero_lt_of_lt hn), hcut appsBg hn, hcut apps happs]

/-- What the function does for a thread: it copies what it takes for the path. -/
theorem getSchedulerGroup_thread (buf : Chars) (hpos : 1 ≤ bufLen) (hbuf : bufLen ≤ buf.length)
    (hproc : proc tid = some (cgroupFile t.lines)) (hfits : t.Fits)
    (hn : (pieces 254 254 (cgroupFile t.lines)).length < n) :
    ∃ buf', getSchedulerGroup n proc tid buf bufLen = .done (0, buf') ∧
      CStr buf' 0 ((t.group.val.take t.line.shown).take (bufLen - 1)) := by
  have hverdict := getSchedulerGroup_verdict hpos hbuf hproc (isText_cgroupFile t.lines) hn
  have hbefore : ∀ l ∈ linesBefore t.lines, l.Fits := by
    rw [t.linesBefore_lines]
    exact hfits.above
  have hid : t.line.id.length ≤ 248 := hfits.hierarchy.trans (by decide)
  rw [deciding_cpuLine hbefore t.cpuLine_lines hid] at hverdict
  simp only [Verdict, if_neg (List.cons_ne_nil _ _), groupText_shown] at hverdict
  exact hverdict

/-- The policy of what is copied. -/
theorem policyOf_shown (hfits : t.Fits) :
    policyOf ((t.group.val.take t.line.shown).take (grpBufSize - 1)) =
      policyOf (shownPath t.group.val) := by
  have hroom : grpBufSize - 1 ≤ 248 - t.hierarchy.length - 1 := by
    have hhier := hfits.hierarchy
    unfold grpBufSize
    omega
  have hcut : (t.group.val.take t.line.shown).take (grpBufSize - 1) =
      (shownPath t.group.val).take (grpBufSize - 1) := by
    rw [shownPath, List.take_take, List.take_take]
    unfold CgroupLine.shown
    congr 1
    simp only [KernelThread.line]
    omega
  rw [hcut, policyOf_take (by decide)]

end Group

end ThreadManager
