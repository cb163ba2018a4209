import ThreadManager.Schemes.Heap
import ThreadManager.Schemes.Transition

/-! The `Poll` of a thread: `Poll::prepare`, `Poll::setForThread`, `Poll::getForThread` and
    `Poll::threadDestructor` of Poll.cpp, and the construction and destruction of a `MessageQueue`.

    `setForThread` takes a `const Poll&` and is given a `Poll*`. The one way to read that in C++ is
    to make a `Poll` from the pointer, through `bool` and the constructor `Poll(bool)`: a temporary,
    which is destroyed when the call is over. So the thread's slot never holds the `Poll` that was
    created for it but the address of one that is gone. An object keeps its identity for ever;
    `destroyed` lists the identities whose destructor has run, once for each time. A `Looper` makes
    one `MessageQueue` and destroys it, so its construction and destruction are those of the queue. -/

namespace ThreadManager
open Schemes

/-- A `Poll`, without its pipe and its file descriptors. -/
structure Poll where
  mAllowNonCallbacks : Bool
  deriving DecidableEq, Repr

/-- `ALOOPER_PREPARE_ALLOW_NON_CALLBACKS`. -/
def prepareAllowNonCallbacks : BitVec 32 := 1#32

/-- The Polls of a process, those destroyed so far, each thread's value of `gTLSKey`, the `mPoll` of
    each queue alive, and which Poll each call of `prepare` and each construction of a queue used. -/
structure Polls where
  polls : Heap Poll
  next : ℕ
  destroyed : List Addr
  gTLSKey : ℕ → Ptr
  queues : ℕ → Option Ptr
  used : List (ℕ × Ptr)

/-- What threads do: the thread comes first, then the options or the queue. -/
inductive PollsAct where
  | prepare (t : ℕ) (opts : BitVec 32)
  | newQueue (t q : ℕ)
  | deleteQueue (q : ℕ)
  | threadExit (t : ℕ)
  deriving DecidableEq, Repr

/-- The thread that calls `prepare` or constructs a queue. -/
def PollsAct.user : PollsAct → Option ℕ
  | .prepare t _ => some t
  | .newQueue t _ => some t
  | _ => none

namespace Polls

/-- Nothing has been made. -/
def start : Polls := ⟨fun _ => none, 0, [], fun _ => none, fun _ => none, []⟩

/-- `Poll::Poll`, on the heap or as a temporary. -/
def newPoll (s : Polls) (allowNonCallbacks : Bool) : Addr × Polls :=
  (s.next, { s with polls := s.polls.alloc s.next ⟨allowNonCallbacks⟩, next := s.next + 1 })

/-- `Poll::~Poll`, from a `delete` or at the end of a temporary; a `delete` of NULL does nothing. -/
def destroy (s : Polls) : Ptr → Polls
  | none => s
  | some a => { s with
      polls := Function.update s.polls a none
      destroyed := s.destroyed ++ [a] }

/-- `Poll::getForThread` on thread `t`. -/
def getForThread (s : Polls) (t : ℕ) : Ptr := s.gTLSKey t

/-- `Poll::setForThread` on thread `t`; `poller` is the object its reference is bound to. -/
def setForThread (s : Polls) (t : ℕ) (poller : Addr) : Polls :=
  let old := s.getForThread t
  if old = some poller then s
  else { s with gTLSKey := Function.update s.gTLSKey t (some poller) }

/-- `setForThread(poller)` with a `Poll*`: the reference is bound to a temporary `Poll(poller)`. -/
def setForThreadPtr (s : Polls) (t : ℕ) (poller : Ptr) : Polls :=
  let (temporary, s) := s.newPoll poller.isSome
  (s.setForThread t temporary).destroy (some temporary)

/-- What `prepare` and `MessageQueue::init` begin with: the thread's Poll, or a new one. -/
def getOrCreate (s : Polls) (t : ℕ) (allowNonCallbacks : Bool) : Ptr × Polls :=
  match s.getForThread t with
  | some a => (some a, s)
  | none =>
    let (poller, s) := s.newPoll allowNonCallbacks
    (some poller, s.setForThreadPtr t (some poller))

/-- `Poll::prepare`; `getAllowNonCallbacks` follows the pointer, and what it says is only logged. -/
def prepare (s : Polls) (t : ℕ) (opts : BitVec 32) : Outcome Fault (Ptr × Polls) :=
  let allowNonCallbacks := opts &&& prepareAllowNonCallbacks != 0
  let (poller, s) := s.getOrCreate t allowNonCallbacks
  s.polls.deref poller >>= fun _ => .done (poller, s)

/-- `MessageQueue::MessageQueue` of queue `q`, which is `init`. -/
def newQueue (s : Polls) (t q : ℕ) : Ptr × Polls :=
  let (mPoll, s) := s.getOrCreate t false
  (mPoll, { s with queues := Function.update s.queues q (some mPoll) })

/-- `MessageQueue::~MessageQueue`. -/
def deleteQueue (s : Polls) (q : ℕ) : Polls :=
  match s.queues q with
  | none => s
  | some mPoll => { s.destroy mPoll with queues := Function.update s.queues q none }

/-- The end of thread `t`: its slot is emptied and `threadDestructor` deletes what was in it. -/
def threadExit (s : Polls) (t : ℕ) : Polls :=
  { s.destroy (s.gTLSKey t) with gTLSKey := Function.update s.gTLSKey t none }

def record (t : ℕ) (r : Ptr × Polls) : Polls := { r.2 with used := r.2.used ++ [(t, r.1)] }

/-- What a step does. -/
def exec (s : Polls) : PollsAct → Outcome Fault Polls
  | .prepare t opts => s.prepare t opts >>= fun r => .done (record t r)
  | .newQueue t q => .done (record t (s.newQueue t q))
  | .deleteQueue q => .done (s.deleteQueue q)
  | .threadExit t => .done (s.threadExit t)

/-- A queue that is made is new, and one that is destroyed is there. -/
def Enabled (s : Polls) : PollsAct → Prop
  | .newQueue _ q => s.queues q = none
  | .deleteQueue q => (s.queues q).isSome
  | _ => True

def Step (s : Polls) (a : PollsAct) (t : Polls) : Prop := s.Enabled a ∧ s.exec a = .done t

abbrev Runs (tr : List (Taken Polls PollsAct)) (s : Polls) : Prop := Run Step start tr s

variable {s s' : Polls} {a : PollsAct} {t q b : ℕ} {p : Ptr} {opts : BitVec 32}
  {allow : Bool} {tr : List (Taken Polls PollsAct)}

/-! ### What each step does -/

theorem getOrCreate_some (h : s.gTLSKey t = some b) : s.getOrCreate t allow = (some b, s) := by
  simp [getOrCreate, getForThread, h]

/-- With nothing in the slot the new Poll is used, and it is the temporary's address that is stored. -/
theorem getOrCreate_none (h : s.gTLSKey t = none) :
    s.getOrCreate t allow = (some s.next, { s with
      polls := Function.update
        ((s.polls.alloc s.next ⟨allow⟩).alloc (s.next + 1) ⟨true⟩) (s.next + 1) none
      next := s.next + 2
      destroyed := s.destroyed ++ [s.next + 1]
      gTLSKey := Function.update s.gTLSKey t (some (s.next + 1)) }) := by
  simp [getOrCreate, setForThreadPtr, setForThread, getForThread, newPoll, destroy, h]

/-- Identities are given out in order, a Poll is alive until it is destroyed, what is in a slot is
    gone, and two queues share none but a destroyed Poll. -/
structure Kept (s : Polls) : Prop where
  alive : ∀ a : ℕ, (s.polls a).isSome ↔ a < s.next ∧ a ∉ s.destroyed
  old : ∀ a : ℕ, a ∈ s.destroyed → a < s.next
  slot : ∀ t b, s.gTLSKey t = some b → b ∈ s.destroyed
  queue : ∀ q p, s.queues q = some p → ∃ a : ℕ, p = some a ∧ a < s.next
  shared : ∀ q q' a, s.queues q = some (some a) → s.queues q' = some (some a) →
    q = q' ∨ a ∈ s.destroyed

theorem kept_start : start.Kept :=
  ⟨by simp [start], by simp [start], nofun, nofun, nofun⟩

theorem Kept.destroy (h : s.Kept) (hb : b < s.next) : (s.destroy (some b)).Kept where
  alive a := by
    rcases eq_or_ne a b with rfl | hne
    · simp [Polls.destroy]
    · simpa [Polls.destroy, hne] using h.alive a
  old a ha := by
    rcases List.mem_append.mp ha with ha | ha
    · exact h.old a ha
    · exact List.mem_singleton.mp ha ▸ hb
  slot t c hc := List.mem_append_left _ (h.slot t c hc)
  queue := h.queue
  shared q q' a hq hq' := (h.shared q q' a hq hq').imp_right fun ha => List.mem_append_left _ ha

/-- A call that begins keeps it, and the Poll it uses is destroyed or in no queue. -/
theorem Kept.getOrCreate (h : s.Kept) (t : ℕ) (allow : Bool) : ∃ (a : ℕ) (s' : Polls),
    s.getOrCreate t allow = (some a, s') ∧ s'.Kept ∧
    a < s'.next ∧ s'.queues = s.queues ∧ s'.used = s.used ∧
    (a ∈ s'.destroyed ∨ ∀ q, s.queues q ≠ some (some a)) := by
  cases hslot : s.gTLSKey t with
  | some b =>
    have hb := h.slot t b hslot
    exact ⟨b, s, getOrCreate_some hslot, h, h.old b hb, rfl, rfl, Or.inl hb⟩
  | none =>
    refine ⟨_, _, getOrCreate_none hslot, ⟨?_, ?_, ?_, ?_, ?_⟩, by simp, rfl, rfl, Or.inr ?_⟩
    · intro a
      have hold : s.next ∉ s.destroyed := fun hmem => lt_irrefl _ (h.old _ hmem)
      rcases eq_or_ne a (s.next + 1) with rfl | hne₁
      · simp
      · rcases eq_or_ne a s.next with rfl | hne
        · simp [Heap.alloc, hold]
        · simp only [Function.update_of_ne hne₁, Heap.alloc, Function.update_of_ne hne, h.alive a,
            List.mem_append, List.mem_singleton, hne₁, or_false]
          refine and_congr_left' ?_
          omega
    · intro a ha
      change a < s.next + 2
      rcases List.mem_append.mp ha with ha | ha
      · have := h.old a ha
        omega
      · have := List.mem_singleton.mp ha
        omega
    · intro u c hc
      rcases eq_or_ne u t with rfl | hne
      · simp only [Function.update_self, Option.some.injEq] at hc
        exact List.mem_append_right _ (List.mem_singleton.mpr hc.symm)
      · simp only [Function.update_of_ne hne] at hc
        exact List.mem_append_left _ (h.slot u c hc)
    · intro q p hq
      obtain ⟨a, rfl, ha⟩ := h.queue q p hq
      exact ⟨a, rfl, ha.trans (Nat.lt_add_of_pos_right (by decide))⟩
    · intro q q' a hq hq'
      exact (h.shared q q' a hq hq').imp_right fun ha => List.mem_append_left _ ha
    · intro q hq
      obtain ⟨a, ha, hlt⟩ := h.queue q _ hq
      exact hlt.ne (Option.some.inj ha).symm

theorem Kept.record (h : s.Kept) : (record t (p, s)).Kept :=
  ⟨h.alive, h.old, h.slot, h.queue, h.shared⟩

/-- What is in a slot is destroyed, and `prepare` follows it. -/
theorem Kept.prepare_dangling (h : s.Kept) (hslot : s.gTLSKey t = some b) :
    s.prepare t opts = .fault .dangling := by
  have hdead : s.polls b = none := by
    by_contra hno
    exact ((h.alive b).mp (Option.isSome_iff_ne_none.mpr hno)).2 (h.slot t b hslot)
  rw [Polls.prepare, getOrCreate_some hslot]
  simp [Heap.deref, hdead]

/-- So it returns only where nothing is in the slot. -/
theorem Kept.prepare_done (h : s.Kept) {r : Ptr × Polls} (hr : s.prepare t opts = .done r) :
    s.gTLSKey t = none ∧ ∃ allow, r = s.getOrCreate t allow := by
  cases hslot : s.gTLSKey t with
  | none =>
    obtain ⟨x, -, hr⟩ := Outcome.bind_eq_done.mp hr
    exact ⟨rfl, _, (Outcome.done.inj hr).symm⟩
  | some b =>
    rw [h.prepare_dangling hslot] at hr
    cases hr

theorem Kept.newQueue (h : s.Kept) : (s.newQueue t q).2.Kept := by
  obtain ⟨a, s', heq, hk, ha, hqueues, -, hown⟩ := h.getOrCreate t false
  -- another queue with the Poll of the new one
  have hshared : ∀ r, r ≠ q → s'.queues r = some (some a) → a ∈ s'.destroyed := by
    intro r _ hr
    rw [hqueues] at hr
    exact hown.resolve_right fun hno => hno r hr
  simp only [Polls.newQueue, heq]
  refine ⟨hk.alive, hk.old, hk.slot, ?_, ?_⟩
  · intro r p hr
    rcases eq_or_ne r q with hrq | hne
    · simp only [hrq, Function.update_self, Option.some.injEq] at hr
      exact ⟨a, hr.symm, ha⟩
    · simp only [Function.update_of_ne hne] at hr
      exact hk.queue r p hr
  · intro r r' c hr hr'
    rcases eq_or_ne r q with hrq | hne <;> rcases eq_or_ne r' q with hrq' | hne'
    · exact Or.inl (hrq.trans hrq'.symm)
    · simp only [hrq, Function.update_self, Function.update_of_ne hne', Option.some.injEq] at hr hr'
      subst hr
      exact Or.inr (hshared r' hne' hr')
    · simp only [hrq', Function.update_self, Function.update_of_ne hne, Option.some.injEq] at hr hr'
      subst hr'
      exact Or.inr (hshared r hne hr)
    · simp only [Function.update_of_ne hne, Function.update_of_ne hne'] at hr hr'
      exact hk.shared r r' c hr hr'

/-- A queue that is gone shares nothing. -/
theorem Kept.forget (h : s.Kept) : { s with queues := Function.update s.queues q none }.Kept := by
  have hold : ∀ r p, Function.update s.queues q none r = some p → s.queues r = some p := by
    intro r p hr
    rcases eq_or_ne r q with rfl | hne
    · simp at hr
    · rwa [Function.update_of_ne hne] at hr
  exact ⟨h.alive, h.old, h.slot, fun r p hr => h.queue r p (hold r p hr),
    fun r r' c hr hr' => h.shared r r' c (hold r _ hr) (hold r' _ hr')⟩

theorem Kept.deleteQueue (h : s.Kept) : (s.deleteQueue q).Kept := by
  cases hq : s.queues q with
  | none => simpa [Polls.deleteQueue, hq] using h
  | some p =>
    obtain ⟨a, rfl, ha⟩ := h.queue q p hq
    simp only [Polls.deleteQueue, hq]
    exact (h.destroy ha).forget

/-- A thread that has ended has nothing in its slot. -/
theorem Kept.empty (h : s.Kept) : { s with gTLSKey := Function.update s.gTLSKey t none }.Kept := by
  refine ⟨h.alive, h.old, ?_, h.queue, h.shared⟩
  intro u c hc
  rcases eq_or_ne u t with rfl | hne
  · simp at hc
  · simp only [Function.update_of_ne hne] at hc
    exact h.slot u c hc

theorem Kept.threadExit (h : s.Kept) : (s.threadExit t).Kept := by
  cases hslot : s.gTLSKey t with
  | none =>
    simp only [Polls.threadExit, hslot, Polls.destroy]
    exact h.empty
  | some b =>
    simp only [Polls.threadExit, hslot]
    exact (h.destroy (h.old b (h.slot t b hslot))).empty

theorem Kept.step (h : s.Kept) (hstep : Step s a s') : s'.Kept := by
  obtain ⟨hen, hexec⟩ := hstep
  cases a with
  | prepare t opts =>
    obtain ⟨r, hr, hs'⟩ := Outcome.bind_eq_done.mp hexec
    obtain rfl := Outcome.done.inj hs'
    obtain ⟨-, allow, rfl⟩ := h.prepare_done hr
    obtain ⟨a, s₁, heq, hk, -⟩ := h.getOrCreate t allow
    rw [heq]
    exact hk.record
  | newQueue t q =>
    obtain rfl := Outcome.done.inj hexec
    exact h.newQueue.record
  | deleteQueue q =>
    obtain rfl := Outcome.done.inj hexec
    exact h.deleteQueue
  | threadExit t =>
    obtain rfl := Outcome.done.inj hexec
    exact h.threadExit

theorem Kept.of_run (hrun : Runs tr s) : s.Kept :=
  hrun.invariant kept_start fun _ _ hstep h => h.step hstep

/-! ### The association -/

/-- Every call on thread `t` used the Poll that `getForThread` gives there, which is alive and no
    other thread's. -/
structure Associated (s : Polls) (t : ℕ) : Prop where
  get : ∀ p, (t, p) ∈ s.used → s.getForThread t = p
  alive : ∀ p, (t, p) ∈ s.used → ∃ a, p = some a ∧ (s.polls a).isSome
  own : ∀ u p, (t, p) ∈ s.used → (u, p) ∈ s.used → u = t

/-- A slot is filled by a call, and not with the Poll that the call used. -/
structure Misplaced (s : Polls) : Prop where
  filled : ∀ t b, s.gTLSKey t = some b → ∃ p, (t, p) ∈ s.used
  slot : ∀ t p, (t, p) ∈ s.used → ∃ a b, (t, some a) ∈ s.used ∧ s.gTLSKey t = some b ∧ a ≠ b

theorem Misplaced.congr (h : s.Misplaced) (hslot : s'.gTLSKey = s.gTLSKey)
    (hused : s'.used = s.used) : s'.Misplaced := by
  refine ⟨?_, ?_⟩
  · rw [hslot, hused]
    exact h.filled
  · rw [hslot, hused]
    exact h.slot

/-- The first call on a thread leaves the temporary's address behind, and later ones leave it there. -/
theorem Misplaced.use (h : s.Misplaced) (t : ℕ) (allow : Bool) :
    (record t (s.getOrCreate t allow)).Misplaced := by
  cases hslot : s.gTLSKey t with
  | none =>
    rw [getOrCreate_none hslot]
    refine ⟨?_, ?_⟩
    · intro u b hb
      rcases eq_or_ne u t with rfl | hne
      · exact ⟨_, List.mem_append_right _ (List.mem_singleton_self _)⟩
      · simp only [record, Function.update_of_ne hne] at hb
        obtain ⟨p, hp⟩ := h.filled u b hb
        exact ⟨p, List.mem_append_left _ hp⟩
    · intro u p hp
      rcases eq_or_ne u t with rfl | hne
      · exact ⟨s.next, s.next + 1, List.mem_append_right _ (List.mem_singleton_self _),
          by simp [record], (Nat.lt_succ_self _).ne⟩
      · have hold : (u, p) ∈ s.used := by simpa [record, hne] using hp
        obtain ⟨a, b, ha, hb, hab⟩ := h.slot u p hold
        exact ⟨a, b, List.mem_append_left _ ha, by simpa [record, hne] using hb, hab⟩
  | some b =>
    rw [getOrCreate_some hslot]
    refine ⟨?_, ?_⟩
    · intro u c hc
      obtain ⟨p, hp⟩ := h.filled u c hc
      exact ⟨p, List.mem_append_left _ hp⟩
    · intro u p hp
      have hold : ∃ p, (u, p) ∈ s.used := by
        rcases List.mem_append.mp hp with hp | hp
        · exact ⟨p, hp⟩
        · obtain ⟨rfl, -⟩ := Prod.mk.inj (List.mem_singleton.mp hp)
          exact h.filled u b hslot
      obtain ⟨p, hp⟩ := hold
      obtain ⟨a, c, ha, hc, hac⟩ := h.slot u p hp
      exact ⟨a, c, List.mem_append_left _ ha, hc, hac⟩

theorem Misplaced.step (h : s.Misplaced) (hk : s.Kept) (hstep : Step s a s')
    (ha : a.user.isSome) : s'.Misplaced := by
  obtain ⟨-, hexec⟩ := hstep
  cases a with
  | prepare t opts =>
    obtain ⟨r, hr, hs'⟩ := Outcome.bind_eq_done.mp hexec
    obtain rfl := Outcome.done.inj hs'
    obtain ⟨-, allow, rfl⟩ := hk.prepare_done hr
    exact h.use t allow
  | newQueue t q =>
    obtain rfl := Outcome.done.inj hexec
    exact (h.use t false).congr rfl rfl
  | deleteQueue q => cases ha
  | threadExit t => cases ha

theorem used_destroy : (s.destroy p).used = s.used := by
  cases p <;> rfl

/-- A thread has used a Poll once it has made a call. -/
theorem used_step (hk : s.Kept) (hstep : Step s a s') :
    (∃ p, (t, p) ∈ s'.used) ↔ (∃ p, (t, p) ∈ s.used) ∨ a.user = some t := by
  obtain ⟨-, hexec⟩ := hstep
  cases a with
  | prepare u opts =>
    obtain ⟨r, hr, hs'⟩ := Outcome.bind_eq_done.mp hexec
    obtain rfl := Outcome.done.inj hs'
    obtain ⟨-, allow, rfl⟩ := hk.prepare_done hr
    obtain ⟨a, s₁, heq, -, -, -, hused, -⟩ := hk.getOrCreate u allow
    simp [record, heq, hused, PollsAct.user, exists_or, eq_comm]
  | newQueue u q =>
    obtain rfl := Outcome.done.inj hexec
    obtain ⟨a, s₁, heq, -, -, -, hused, -⟩ := hk.getOrCreate u false
    simp [record, newQueue, heq, hused, PollsAct.user, exists_or, eq_comm]
  | deleteQueue q =>
    obtain rfl := Outcome.done.inj hexec
    cases hq : s.queues q <;> simp [deleteQueue, hq, used_destroy, PollsAct.user]
  | threadExit u =>
    obtain rfl := Outcome.done.inj hexec
    simp [threadExit, used_destroy, PollsAct.user]

theorem used_of_run (hrun : Runs tr s) :
    (∃ p, (t, p) ∈ s.used) ↔ ∃ x ∈ tr, x.act.user = some t := by
  induction hrun with
  | nil => simp [start]
  | snoc hr hstep ih => simp [used_step (Kept.of_run hr) hstep, ih, or_and_right, exists_or]

/-- With nothing destroyed and no thread ended, a thread is associated with its Poll exactly as long
    as it has made no call. -/
theorem associated_when (hrun : Runs tr s) (hcalls : ∀ x ∈ tr, x.act.user.isSome) :
    s.Associated t ↔ ∀ x ∈ tr, x.act.user ≠ some t := by
  have hmis := hrun.invariant (I := fun s => s.Kept ∧ s.Misplaced)
    ⟨kept_start, nofun, nofun⟩ fun x hx hstep h =>
      ⟨h.1.step hstep, h.2.step h.1 hstep (hcalls x hx)⟩
  constructor
  · intro h x hx hact
    obtain ⟨p, hp⟩ := (used_of_run hrun).mpr ⟨x, hx, hact⟩
    obtain ⟨a, b, ha, hb, hab⟩ := hmis.2.slot t p hp
    have hget := h.get _ ha
    rw [getForThread, hb, Option.some.injEq] at hget
    exact hab hget.symm
  · intro hno
    have hnone : ∀ p, (t, p) ∉ s.used := by
      intro p hp
      obtain ⟨x, hx, hact⟩ := (used_of_run hrun).mp ⟨p, hp⟩
      exact hno x hx hact
    exact ⟨fun p hp => absurd hp (hnone p), fun p hp => absurd hp (hnone p),
      fun u p hp => absurd hp (hnone p)⟩

/-- One queue is constructed on thread 0: its `mPoll` is alive, the slot has the temporary. -/
theorem associated_newQueue : ∃ tr s, Runs tr s ∧ tr.map Taken.act = [.newQueue 0 0] ∧
    s.used = [(0, some 0)] ∧ s.getForThread 0 = some 1 ∧ 1 ∈ s.destroyed ∧ ¬s.Associated 0 := by
  have h₀ : Runs [] start := Run.nil
  have h₁ := h₀.snoc (a := PollsAct.newQueue 0 0) ⟨rfl, rfl⟩
  refine ⟨_, _, h₁, rfl, rfl, rfl, List.mem_singleton_self _, ?_⟩
  intro h
  have hget := h.get (some 0) (List.mem_singleton_self _)
  cases hget

/-- A call on thread 0 breaks the association there and no other one. -/
theorem associated_when_newQueue : ∃ tr s, Runs tr s ∧ tr.map Taken.act = [.newQueue 0 0] ∧
    ¬s.Associated 0 ∧ s.Associated 1 := by
  have h₀ : Runs [] start := Run.nil
  have h₁ := h₀.snoc (a := PollsAct.newQueue 0 0) ⟨rfl, rfl⟩
  refine ⟨_, _, h₁, rfl, ?_, ?_⟩
  · rw [associated_when h₁ (List.forall_mem_singleton.mpr rfl)]
    intro h
    exact h _ (List.mem_singleton_self _) rfl
  · rw [associated_when h₁ (List.forall_mem_singleton.mpr rfl)]
    exact List.forall_mem_singleton.mpr nofun

end Polls

end ThreadManager
