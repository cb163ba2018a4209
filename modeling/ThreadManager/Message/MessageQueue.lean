import ThreadManager.Schemes.Width
import ThreadManager.Poll.WakePipe
import ThreadManager.Message.Message

/-! `MessageQueue::enqueueMessage` and `MessageQueue::next` of MessageQueue.cpp.

    `enqueueMessage` is its section under `mLock` (`enqueueLocked`) followed by the wake; `next` is a
    loop around `pollOnce` whose section under `mLock` is `nextLocked`. The clock reading is an
    argument, and may be any value. `mBlock`, `mPublisher` and the stubs `removeMessages` and `quit`
    are left out: nothing reads the fields, and the stubs do nothing. -/

namespace ThreadManager
open Schemes

/-- `MAX_VALUE` of util.h. -/
def maxValue : ℤ := 0x7FFFFFFF

/-- The queue of messages and the wake pipe of its `Poll`. -/
structure MessageQueue where
  mInboundQueue : Queue Message
  mPoll : WakePipe

/-- How one round of `next` ends: it returns a message, or polls again with this timeout in
    milliseconds. -/
inductive NextResult where
  | message (msg : Addr)
  | again (nextPollTimeoutMillis : ℤ)
  deriving DecidableEq, Repr

namespace MessageQueue

/-- A message queue before its first message, over the objects of `mem`. -/
def init (mem : Heap (Link Message)) (mPoll : WakePipe) : MessageQueue := ⟨.empty mem, mPoll⟩

/-- The objects alive. -/
def mem (s : MessageQueue) : Heap (Link Message) := s.mInboundQueue.mem

/-- `createMessage`, with `m` as the identity of the new object. -/
def newMessage (s : MessageQueue) (m : Addr) (target : Option Target) (now : ℤ) : MessageQueue :=
  { s with mInboundQueue := { s.mInboundQueue with
      mem := s.mem.alloc m (Message.createMessage target now) } }

/-- `MessageQueue::wake`. -/
def wake (s : MessageQueue) : MessageQueue := { s with mPoll := s.mPoll.wake }

/-- The section of `enqueueMessage` under `mLock`, with `needWake`. -/
def enqueueLocked (fuel : ℕ) (s : MessageQueue) (msg : Ptr) (when : ℤ) :
    Outcome Fault (Bool × MessageQueue) := do
  let needWake := s.mInboundQueue.isEmpty
  let q ← s.mInboundQueue.enqueueAtTimeOut fuel msg when
  return (needWake, { s with mInboundQueue := q })

/-- `enqueueMessage`, the search given `fuel` passes. Both returns of the source are `false`. -/
def enqueueMessage (fuel : ℕ) (s : MessageQueue) (msg : Ptr) (when : ℤ) :
    Outcome Fault (Bool × MessageQueue) := do
  let m ← s.mem.deref msg
  if m.obj.getTarget = none then return (false, s)
  else
    let (needWake, s) ← s.enqueueLocked fuel msg when
    return (false, if needWake then s.wake else s)

/-- The section of `next` under `mLock`, at the clock reading `now`. A message that is not due is
    off the list before the test, and nothing puts it back. -/
def nextLocked (s : MessageQueue) (now : ℤ) : Outcome Fault (NextResult × MessageQueue) :=
  if s.mInboundQueue.isEmpty then return (.again (-1), s)
  else do
    let (msg, q) ← s.mInboundQueue.dequeueAtHead
    match msg with
    | none => return (.again (-1), { s with mInboundQueue := q })
    | some a =>
      -- a NULL target is only logged here
      let m ← q.mem.deref (some a)
      if now < getWhen m.obj then
        return (.again (min (signed 32 (getWhen m.obj - now)) maxValue),
          { s with mInboundQueue := q })
      else
        let q ← q.setNext (some a) none
        let mem ← q.mem.modify (some a) fun n => { n with obj := n.obj.markInUse }
        return (.message a, { s with mInboundQueue := { q with mem } })

/-- The memory after `msg->next = NULL; msg->markInUse()`. -/
def handOut (h : Heap (Link Message)) (a : Addr) : Heap (Link Message) :=
  (h.upd a (Link.withNext none)).upd a fun n => { n with obj := n.obj.markInUse }

/-- The stamp of a message. -/
def stamp (s : MessageQueue) (a : Addr) : ℤ := ThreadManager.stamp s.mem a

/-- The target of a message. -/
def target (s : MessageQueue) (a : Addr) : Option Target := (s.mem a).bind fun n => n.obj.getTarget

end MessageQueue

/-! ### What the two functions never change -/

/-- The message at `a` is there before and after or at neither time, with one stamp and target. -/
def KeepsAt (h h' : Heap (Link Message)) (a : Addr) : Prop :=
  (h' a).map (fun n => (n.obj.when, n.obj.mTarget)) =
    (h a).map fun n => (n.obj.when, n.obj.mTarget)

/-- Objects neither come nor go, and each keeps its stamp and its target. -/
def Keeps (h h' : Heap (Link Message)) : Prop := ∀ a, KeepsAt h h' a

namespace KeepsAt

variable {h h' : Heap (Link Message)} {a : Addr}

theorem live (hk : KeepsAt h h' a) : (h' a).isSome = (h a).isSome := by
  simpa using congrArg Option.isSome hk

theorem stamp (hk : KeepsAt h h' a) : ThreadManager.stamp h' a = ThreadManager.stamp h a := by
  have := congrArg (fun o => (o.map Prod.fst).getD 0) hk
  simp only [Option.map_map] at this
  exact this

theorem target (hk : KeepsAt h h' a) :
    ((h' a).bind fun n => n.obj.getTarget) = (h a).bind fun n => n.obj.getTarget := by
  have := congrArg (fun o => o.bind Prod.snd) hk
  simp only [Option.bind_map] at this
  exact this

end KeepsAt

namespace Keeps

variable {h h' h'' : Heap (Link Message)}

theorem refl : Keeps h h := fun _ => rfl

theorem trans (hk : Keeps h h') (hk' : Keeps h' h'') : Keeps h h'' :=
  fun a => Eq.trans (hk' a) (hk a)

theorem upd {f : Link Message → Link Message} (a : Addr)
    (hf : ∀ n, ((f n).obj.when, (f n).obj.mTarget) = (n.obj.when, n.obj.mTarget)) :
    Keeps h (h.upd a f) :=
  fun _ => Heap.map_upd_of_eq hf

end Keeps

theorem Relinks.keeps {ks : List Addr} {h h' : Heap (Link Message)} (hr : Relinks ks h h') :
    Keeps h h' := fun a => by
  have := congrArg (fun o => o.map fun m => (m.when, m.mTarget)) (hr.obj a)
  simp only [Option.map_map] at this
  exact this

namespace MessageQueue

variable {s s' : MessageQueue} {msg a : Addr} {when now : ℤ} {xs : List Addr} {r : NextResult}

/-- A message with a target is alive. -/
theorem live_of_target (h : s.target a ≠ none) : (s.mem a).isSome := by
  by_contra hno
  rw [Option.not_isSome_iff_eq_none] at hno
  simp [target, hno] at h

theorem keepsAt_newMessage {g : Option Target} (ha : (s.mem a).isSome) (hnew : s.mem msg = none) :
    KeepsAt s.mem (s.newMessage msg g now).mem a := by
  refine congrArg _ (Heap.alloc_of_ne ?_)
  rintro rfl
  simp [hnew] at ha

theorem newMessage_fwd {g : Option Target} (hnew : s.mem msg = none)
    (hq : s.mInboundQueue.Fwd xs) : (s.newMessage msg g now).mInboundQueue.Fwd xs := by
  refine ⟨hq.next.congr fun a ha => congrArg _ (Heap.alloc_of_ne ?_), hq.tail⟩
  rintro rfl
  have hlive := hq.live ha
  rw [show s.mInboundQueue.mem a = none from hnew] at hlive
  cases hlive

theorem handOut_of_ne {h : Heap (Link Message)} {b : Addr} (hb : b ≠ a) : handOut h a b = h b := by
  rw [handOut, Heap.upd_of_ne hb, Heap.upd_of_ne hb]

theorem keeps_handOut {h : Heap (Link Message)} : Keeps h (handOut h a) :=
  Keeps.trans (.upd (f := Link.withNext none) a fun _ => rfl) (.upd a fun _ => rfl)

theorem enqueueMessage_stable (s : MessageQueue) (msg : Ptr) (when : ℤ) :
    Stable (fun n => s.enqueueMessage n msg when) := by
  refine (Stable.const (s.mem.deref msg)).bind ?_
  intro m
  by_cases ht : m.obj.getTarget = none
  · simp only [ht, if_true]
    exact Stable.const _
  · simp only [ht, if_false]
    refine Stable.bind ?_ fun _ => Stable.const _
    exact (Queue.enqueueAtTimeOut_stable _ _ _).bind fun _ => Stable.const _

/-- A message without a target is refused and nothing changes. -/
theorem enqueueMessage_refused (hlive : (s.mem msg).isSome) (ht : s.target msg = none) (n : ℕ) :
    s.enqueueMessage n (some msg) when = .done (false, s) := by
  obtain ⟨m, hm⟩ := Option.isSome_iff_exists.mp hlive
  have ht' : m.obj.getTarget = none := by simpa [target, hm] using ht
  simp [enqueueMessage, Heap.deref_some hm, ht']

/-- A message with a target goes where `enqueueAtTimeOut` puts it, and wakes an empty queue. -/
theorem enqueueMessage_accepted (ht : s.target msg ≠ none) (n : ℕ) :
    s.enqueueMessage n (some msg) when =
      (s.mInboundQueue.enqueueAtTimeOut n (some msg) when >>= fun q =>
        .done (false, if s.mInboundQueue.isEmpty then { s with mInboundQueue := q }.wake
          else { s with mInboundQueue := q })) := by
  cases hm : s.mem msg with
  | none => simp [target, hm] at ht
  | some m =>
    have ht' : m.obj.getTarget ≠ none := by simpa [target, hm] using ht
    simp only [enqueueMessage, Heap.deref_some hm, Outcome.done_bind, if_neg ht', enqueueLocked]
    cases s.mInboundQueue.enqueueAtTimeOut n (some msg) when <;> rfl

/-- Everything a returning `enqueueMessage` can have done. -/
theorem enqueueMessage_cases {b : Bool}
    (h : Completes (fun n => s.enqueueMessage n (some msg) when) (b, s')) :
    (s.mem msg).isSome ∧ b = false ∧ (s.target msg = none ∧ s' = s ∨
      s.target msg ≠ none ∧
        Completes (fun n => s.mInboundQueue.enqueueAtTimeOut n (some msg) when) s'.mInboundQueue ∧
        s'.mPoll = if s.mInboundQueue.isEmpty then s.mPoll.wake else s.mPoll) := by
  obtain ⟨n, hn⟩ := h
  obtain ⟨m, hm, -⟩ := Outcome.bind_eq_done.mp hn
  obtain ⟨_, ha, hma⟩ := Heap.deref_eq_done.mp hm
  obtain rfl := Option.some.inj ha
  have hlive : (s.mem msg).isSome := by simp [hma]
  refine ⟨hlive, ?_⟩
  by_cases ht : s.target msg = none
  · simp only [enqueueMessage_refused hlive ht, Outcome.done.injEq, Prod.mk.injEq] at hn
    exact ⟨hn.1.symm, Or.inl ⟨ht, hn.2.symm⟩⟩
  · simp only [enqueueMessage_accepted ht] at hn
    obtain ⟨q, hq, hn⟩ := Outcome.bind_eq_done.mp hn
    rw [Outcome.done.injEq, Prod.mk.injEq] at hn
    obtain ⟨rfl, rfl⟩ := hn
    refine ⟨rfl, Or.inr ⟨ht, ⟨n, ?_⟩, ?_⟩⟩ <;> by_cases he : s.mInboundQueue.isEmpty <;>
      simp [he, hq, wake]

/-- `enqueueMessage` creates, deletes and restamps nothing. -/
theorem enqueueMessage_keeps {b : Bool}
    (h : Completes (fun n => s.enqueueMessage n (some msg) when) (b, s')) : Keeps s.mem s'.mem := by
  obtain ⟨-, -, ⟨-, rfl⟩ | ⟨-, ⟨n, hn⟩, -⟩⟩ := enqueueMessage_cases h
  · exact .refl
  · obtain ⟨ks, hr⟩ := Queue.enqueueAtTimeOut_relinks hn
    exact hr.keeps

/-- What the section of `next` does on a queue that is not empty, once its first message is off. -/
theorem nextLocked_dequeued (now : ℤ) {q : Queue Message} (hh : s.mInboundQueue.head = some a)
    (hdeq : s.mInboundQueue.dequeueAtHead = .done (some a, q)) (hlive : (s.mem a).isSome)
    (hk : Keeps s.mem q.mem) :
    s.nextLocked now = if now < s.stamp a
      then .done (.again (min (signed 32 (s.stamp a - now)) maxValue),
        { s with mInboundQueue := q })
      else .done (.message a, { s with mInboundQueue := { q with
        mem := handOut q.mem a } }) := by
  have hlive' : (q.mem a).isSome := by rwa [(hk a).live]
  obtain ⟨n, hn⟩ := Option.isSome_iff_exists.mp hlive'
  have hstamp : getWhen n.obj = s.stamp a := by
    rw [← stamp_some hn, (hk a).stamp, stamp]
  have hne : s.mInboundQueue.isEmpty = false := by simp [Queue.isEmpty, hh]
  simp only [nextLocked, hne, Bool.false_eq_true, if_false, hdeq, Outcome.done_bind,
    Heap.deref_some hn, hstamp, Queue.setNext_some hlive']
  by_cases hdue : now < s.stamp a
  · simp only [hdue, if_true, Outcome.pure_eq]
  · rw [if_neg hdue, if_neg hdue, Heap.modify_some (by simpa using hlive')]
    rfl

theorem dequeueAtHead_keeps {q q' : Queue Message} {p : Ptr}
    (h : q.dequeueAtHead = .done (p, q')) : Keeps q.mem q'.mem := by
  obtain ⟨a, n, -, -, -, -, ⟨-, hmem, -⟩ | ⟨b, -, -, hmem, -⟩⟩ := Queue.dequeueAtHead_done h
  · rw [hmem]; exact .refl
  · rw [hmem]; exact .upd b fun _ => rfl

/-- Everything the section of `next` can do: nothing on an empty queue, and otherwise it takes the
    first message off, to drop it if it is not due and to return it if it is. -/
theorem nextLocked_cases (h : s.nextLocked now = .done (r, s')) :
    s.mInboundQueue.head = none ∧ r = .again (-1) ∧ s' = s ∨
    ∃ a q, s.mInboundQueue.head = some a ∧ s.mInboundQueue.dequeueAtHead = .done (some a, q) ∧
      (s.mem a).isSome ∧
      (now < s.stamp a ∧ r = .again (min (signed 32 (s.stamp a - now)) maxValue) ∧
          s' = { s with mInboundQueue := q } ∨
        s.stamp a ≤ now ∧ r = .message a ∧ s' = { s with mInboundQueue := { q with
          mem := handOut q.mem a } }) := by
  by_cases hh : s.mInboundQueue.head = none
  · have he : s.mInboundQueue.isEmpty = true := by simp [Queue.isEmpty, hh]
    simp only [nextLocked, he, if_true, Outcome.pure_eq, Outcome.done.injEq, Prod.mk.injEq] at h
    exact Or.inl ⟨hh, h.1.symm, h.2.symm⟩
  · right
    have he : s.mInboundQueue.isEmpty = false := by
      simpa [Queue.isEmpty, Option.isSome_iff_ne_none] using hh
    have hrun := h
    simp only [nextLocked, he, Bool.false_eq_true, if_false] at hrun
    obtain ⟨⟨p, q⟩, hdeq, -⟩ := Outcome.bind_eq_done.mp hrun
    obtain ⟨a, n, hhead, hn, rfl, -⟩ := Queue.dequeueAtHead_done hdeq
    have hlive : (s.mem a).isSome := by simp [mem, hn]
    refine ⟨a, q, hhead, hdeq, hlive, ?_⟩
    rw [nextLocked_dequeued now hhead hdeq hlive (dequeueAtHead_keeps hdeq)] at h
    split at h
    case isTrue hdue =>
      obtain ⟨rfl, rfl⟩ := Prod.mk.inj (Outcome.done.inj h)
      exact Or.inl ⟨hdue, rfl, rfl⟩
    case isFalse hdue =>
      obtain ⟨rfl, rfl⟩ := Prod.mk.inj (Outcome.done.inj h)
      exact Or.inr ⟨not_lt.mp hdue, rfl, rfl⟩

/-- The section of `next` creates, deletes and restamps nothing. -/
theorem nextLocked_keeps (h : s.nextLocked now = .done (r, s')) : Keeps s.mem s'.mem := by
  obtain ⟨-, -, rfl⟩ | ⟨a, q, -, hdeq, -, hres⟩ := nextLocked_cases h
  · exact .refl
  · have hk := dequeueAtHead_keeps hdeq
    obtain ⟨-, -, rfl⟩ | ⟨-, -, rfl⟩ := hres
    · exact hk
    · exact hk.trans keeps_handOut

/-- Whatever the links are, the section of `next` leaves the pipe alone and moves the head on by one
    link. -/
theorem nextLocked_head (h : s.nextLocked now = .done (r, s')) :
    s'.mPoll = s.mPoll ∧ s'.mInboundQueue.head =
      s.mInboundQueue.head.bind fun a => (s.mem a).bind Link.next := by
  rcases nextLocked_cases h with ⟨hh, -, rfl⟩ | ⟨a, q, hh, hdeq, -, hres⟩
  · simp [hh]
  · obtain ⟨b, n, hb, hn, hab, hq, -⟩ := Queue.dequeueAtHead_done hdeq
    obtain rfl := Option.some.inj hab
    have hlink : (s.mem a).bind Link.next = n.next := by rw [mem, hn, Option.bind_some]
    rcases hres with ⟨-, -, rfl⟩ | ⟨-, -, rfl⟩ <;> simp [hh, hlink, hq]

/-- Under the lock `next` takes the first message of a list off, whether it is due or not. -/
theorem nextLocked_fwd (now : ℤ) (hq : s.mInboundQueue.Fwd (a :: xs)) :
    ∃ s', s.nextLocked now = .done (if now < s.stamp a
        then .again (min (signed 32 (s.stamp a - now)) maxValue) else .message a, s') ∧
      s'.mInboundQueue.Fwd xs ∧ s'.mPoll = s.mPoll := by
  obtain ⟨q, hdeq, hfwd, -⟩ := Queue.dequeueAtHead_fwd hq
  have hrun := nextLocked_dequeued now hq.head hdeq (hq.live List.mem_cons_self)
    (dequeueAtHead_keeps hdeq)
  rcases lt_or_ge now (s.stamp a) with hlt | hge
  · rw [if_pos hlt] at hrun ⊢
    exact ⟨_, hrun, hfwd, rfl⟩
  · rw [if_neg (not_lt.mpr hge)] at hrun ⊢
    have hout : a ∉ xs := (List.nodup_cons.mp hq.nodup).1
    refine ⟨_, hrun, ⟨hfwd.next.congr ?_, hfwd.tail⟩, rfl⟩
    intro x hx
    simp only [handOut_of_ne (ne_of_mem_of_not_mem hx hout)]

theorem nextLocked_nil (hh : s.mInboundQueue.head = none) :
    s.nextLocked now = .done (.again (-1), s) := by
  simp [nextLocked, Queue.isEmpty, hh]

end MessageQueue

/-- Two messages with a target, stamped 1 and 2. -/
def twoMessages : Heap (Link Message) := fun a => [1, 2][a]?.map (Message.createMessage (some 0))

/-- A pipe of the usual size. -/
def pipe : WakePipe := .new 65536 (by norm_num)

end ThreadManager
