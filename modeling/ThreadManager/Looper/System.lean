import ThreadManager.Schemes.Transition
import ThreadManager.Message.MessageQueue

/-! The looper thread and its producers: `Looper::loopOnce` around `MessageQueue::next`, and any
    number of threads in `MessageQueue::enqueueMessage`.

    A step is what one thread does between two points where the others may run: a section under
    `mLock`, the wake of a producer, the return of `pollOnce`, the dispatch, the recycling. The
    looper goes through them in a fixed order (`Pc`). `pollOnce` calls `pollInner` until it reports
    a wake, so a timeout changes nothing and is not a step; an EINTR counts as a wake. The policy
    calls that attach the thread are left out, and so is the return of `loopOnce` on a NULL message:
    `next` never returns one. -/

namespace ThreadManager
open Schemes

/-- What the looper thread did, with the time readings it used. -/
inductive Event where
  | returned (msg : Addr) (when now : ℤ)
  | dispatched (msg : Addr) (target : Target) (now : ℤ)
  | handled (msg : Addr)
  | notified
  | recycled (msg : Addr)
  deriving DecidableEq, Repr

/-- `MessageHandler::handleMessage`: case 0 of the type calls `notifyMessage` of the policy. -/
def handleMessage (msg : Addr) (mMessage : Message) : List Event :=
  .handled msg :: match mMessage.getType with
    | .haveCallback => [.notified]
    | .noReceiver => []

/-- `MessageConsumer::consumeMessage`, at the clock reading `now`. -/
def consumeMessage (msg : Addr) (mMessage : Message) (now : ℤ) : List Event :=
  if getWhen mMessage < now then handleMessage msg mMessage else []

/-- `MessageHandler::dispatchMessage` of the handler `this`. -/
def dispatchMessage (this : Target) (msg : Addr) (mMessage : Message) (now : ℤ) : List Event :=
  .dispatched msg this now :: consumeMessage msg mMessage now

/-- Where the looper is in `loopOnce`. -/
inductive Pc where
  | polling (timeoutMillis : ℤ)
  | inNext
  | dispatching (msg : Addr)
  | recycling (msg : Addr)
  deriving DecidableEq, Repr

/-- The queue, the producers that owe a wake, the looper, and three records: the looper's events
    and the accepted messages with their targets, oldest first, and the messages passed to
    `enqueueMessage`. -/
structure Sys where
  queue : MessageQueue
  owes : ℕ → Bool
  looper : Pc
  log : List Event
  accepted : List (Addr × Target)
  submitted : List Addr

/-- The steps of the threads. -/
inductive Act where
  | createMessage (m : Addr) (target : Option Target) (now : ℤ)
  | enqueue (p : ℕ) (m : Addr) (when : ℤ)
  | wake (p : ℕ)
  | poll
  | interrupt
  | next (now : ℤ)
  | dispatch (now : ℤ)
  | recycle
  deriving DecidableEq, Repr

namespace Sys

/-- The looper enters its first `next`, over the objects of `mem`. -/
def start (mem : Heap (Link Message)) (mPoll : WakePipe) : Sys :=
  ⟨.init mem mPoll, fun _ => false, .polling (-1), [], [], []⟩

/-- The thread of the step is there. A new object is none that ever was recycled. -/
def Enabled (s : Sys) : Act → Prop
  | .createMessage m _ _ => s.queue.mem m = none ∧ .recycled m ∉ s.log
  | .enqueue p _ _ => s.owes p = false
  | .wake p => s.owes p = true
  | .poll => (∃ t, s.looper = .polling t) ∧ 0 < s.queue.mPoll.count
  | .interrupt => ∃ t, s.looper = .polling t
  | .next _ => s.looper = .inNext
  | .dispatch _ => ∃ m, s.looper = .dispatching m
  | .recycle => ∃ m, s.looper = .recycling m

/-- `enqueueMessage` up to the release of `mLock`, by the producer `p`. -/
def enqueue (fuel : ℕ) (s : Sys) (p : ℕ) (msg : Addr) (when : ℤ) : Outcome Fault Sys := do
  let m ← s.queue.mem.deref (some msg)
  let s := { s with submitted := s.submitted ++ [msg] }
  match m.obj.getTarget with
  | none => return s
  | some target => do
    let (needWake, queue) ← s.queue.enqueueLocked fuel (some msg) when
    return { s with
      queue
      owes := Function.update s.owes p needWake
      accepted := s.accepted ++ [(msg, target)] }

/-- The looper after the section of `next`: it polls again or has a message to dispatch. -/
def resume (s : Sys) (now : ℤ) (queue : MessageQueue) : NextResult → Sys
  | .again timeoutMillis => { s with queue, looper := .polling timeoutMillis }
  | .message msg => { s with
      queue
      looper := .dispatching msg
      log := s.log ++ [.returned msg (s.queue.stamp msg) now] }

/-- The section of `next` under `mLock`. -/
def next (s : Sys) (now : ℤ) : Outcome Fault Sys := do
  let (r, queue) ← s.queue.nextLocked now
  return s.resume now queue r

/-- `msg->getTarget()->dispatchMessage(msg)`. -/
def dispatch (s : Sys) (msg : Addr) (now : ℤ) : Outcome Fault Sys := do
  let m ← s.queue.mem.deref (some msg)
  match m.obj.getTarget with
  | none => .fault .nullDeref
  | some target => return { s with
      looper := .recycling msg
      log := s.log ++ dispatchMessage target msg m.obj now }

/-- `msg->recycle()`, and the next `next`. -/
def recycle (s : Sys) (msg : Addr) : Outcome Fault Sys := do
  let mem ← s.queue.mem.delete (some msg)
  return { s with
    queue := { s.queue with mInboundQueue := { s.queue.mInboundQueue with mem } }
    looper := .polling (-1)
    log := s.log ++ [.recycled msg] }

/-- What a step does, its loops given `fuel` passes. -/
def exec (fuel : ℕ) (s : Sys) : Act → Outcome Fault Sys
  | .createMessage m target now => return { s with queue := s.queue.newMessage m target now }
  | .enqueue p m when => s.enqueue fuel p m when
  | .wake p => return { s with queue := s.queue.wake, owes := Function.update s.owes p false }
  | .poll => do
    let mPoll ← s.queue.mPoll.awoken fuel
    return { s with queue := { s.queue with mPoll }, looper := .inNext }
  | .interrupt => return { s with looper := .inNext }
  | .next now => s.next now
  | .dispatch now => match s.looper with
    | .dispatching m => s.dispatch m now
    | _ => return s
  | .recycle => match s.looper with
    | .recycling m => s.recycle m
    | _ => return s

/-- A completed step. -/
def Step (s : Sys) (a : Act) (t : Sys) : Prop :=
  s.Enabled a ∧ Completes (fun n => exec n s a) t

/-- The steps `tr` from the start. -/
abbrev Runs (mem : Heap (Link Message)) (mPoll : WakePipe) (tr : List (Taken Sys Act)) (s : Sys) :
    Prop :=
  Run Step (start mem mPoll) tr s

variable {s t : Sys} {m a : Addr} {p : ℕ} {when now : ℤ} {g : Option Target}

/-! ### What each step does -/

theorem step_createMessage (h : Step s (.createMessage m g now) t) :
    s.queue.mem m = none ∧ .recycled m ∉ s.log ∧
      t = { s with queue := s.queue.newMessage m g now } := by
  obtain ⟨⟨hnew, hlog⟩, n, hn⟩ := h
  exact ⟨hnew, hlog, (Outcome.done.inj hn).symm⟩

/-- Everything a completed section of `enqueueMessage` can do. -/
theorem step_enqueue (h : Step s (.enqueue p m when) t) :
    s.owes p = false ∧ (s.queue.mem m).isSome ∧
    (s.queue.target m = none ∧ t = { s with submitted := s.submitted ++ [m] } ∨
      ∃ target q, s.queue.target m = some target ∧
        Completes (fun n => s.queue.mInboundQueue.enqueueAtTimeOut n (some m) when) q ∧
        t = { s with
          queue := { s.queue with mInboundQueue := q }
          owes := Function.update s.owes p s.queue.mInboundQueue.isEmpty
          accepted := s.accepted ++ [(m, target)]
          submitted := s.submitted ++ [m] }) := by
  obtain ⟨hp, n, hn⟩ := h
  obtain ⟨x, hx, hn⟩ := Outcome.bind_eq_done.mp hn
  obtain ⟨_, ha, hxm⟩ := Heap.deref_eq_done.mp hx
  obtain rfl := Option.some.inj ha
  have htarget : s.queue.target m = x.obj.getTarget := by simp [MessageQueue.target, hxm]
  refine ⟨hp, by simp [hxm], ?_⟩
  cases ht : x.obj.getTarget with
  | none =>
    simp only [ht] at hn
    exact Or.inl ⟨by rw [htarget, ht], (Outcome.done.inj hn).symm⟩
  | some target =>
    simp only [ht] at hn
    obtain ⟨⟨needWake, queue⟩, hrun, hn⟩ := Outcome.bind_eq_done.mp hn
    obtain ⟨q, hq, hrun⟩ := Outcome.bind_eq_done.mp hrun
    obtain ⟨rfl, rfl⟩ := Prod.mk.inj (Outcome.done.inj hrun)
    exact Or.inr ⟨target, q, by rw [htarget, ht], ⟨n, hq⟩, (Outcome.done.inj hn).symm⟩

theorem step_wake (h : Step s (.wake p) t) :
    s.owes p = true ∧
      t = { s with queue := s.queue.wake, owes := Function.update s.owes p false } := by
  obtain ⟨hp, n, hn⟩ := h
  exact ⟨hp, (Outcome.done.inj hn).symm⟩

/-- `pollOnce` returns with the pipe empty. -/
theorem step_poll (h : Step s .poll t) :
    (∃ timeout, s.looper = .polling timeout) ∧ 0 < s.queue.mPoll.count ∧
      ∃ mPoll : WakePipe, mPoll.count = 0 ∧
        t = { s with queue := { s.queue with mPoll }, looper := .inNext } := by
  obtain ⟨⟨hpc, hcount⟩, n, hn⟩ := h
  obtain ⟨mPoll, hdrain, hn⟩ := Outcome.bind_eq_done.mp hn
  obtain ⟨p', hp', hzero, -⟩ :=
    WakePipe.awoken_empties s.queue.mPoll (Nat.lt_succ_self s.queue.mPoll.count)
  obtain rfl := (loop_stable WakePipe.awokenPass s.queue.mPoll).completes_unique
    ⟨n, hdrain⟩ ⟨_, hp'⟩
  exact ⟨hpc, hcount, mPoll, hzero, (Outcome.done.inj hn).symm⟩

theorem step_interrupt (h : Step s .interrupt t) :
    (∃ timeout, s.looper = .polling timeout) ∧ t = { s with looper := .inNext } := by
  obtain ⟨hpc, n, hn⟩ := h
  exact ⟨hpc, (Outcome.done.inj hn).symm⟩

theorem step_next (h : Step s (.next now) t) :
    s.looper = .inNext ∧
      ∃ r queue, s.queue.nextLocked now = .done (r, queue) ∧ t = s.resume now queue r := by
  obtain ⟨hpc, n, hn⟩ := h
  obtain ⟨⟨r, queue⟩, hrun, hn⟩ := Outcome.bind_eq_done.mp hn
  exact ⟨hpc, r, queue, hrun, (Outcome.done.inj hn).symm⟩

theorem step_dispatch (h : Step s (.dispatch now) t) :
    ∃ m x target, s.looper = .dispatching m ∧ s.queue.mem m = some x ∧
      x.obj.getTarget = some target ∧
      t = { s with
        looper := .recycling m
        log := s.log ++ dispatchMessage target m x.obj now } := by
  obtain ⟨⟨m, hpc⟩, n, hn⟩ := h
  simp only [exec, hpc] at hn
  obtain ⟨x, hx, hn⟩ := Outcome.bind_eq_done.mp hn
  obtain ⟨_, ha, hxm⟩ := Heap.deref_eq_done.mp hx
  obtain rfl := Option.some.inj ha
  cases ht : x.obj.getTarget with
  | none => simp [ht] at hn
  | some target =>
    simp only [ht] at hn
    exact ⟨m, x, target, hpc, hxm, ht, (Outcome.done.inj hn).symm⟩

theorem step_recycle (h : Step s .recycle t) :
    ∃ m, s.looper = .recycling m ∧ (s.queue.mem m).isSome ∧
      t = { s with
        queue := { s.queue with mInboundQueue := { s.queue.mInboundQueue with
          mem := Function.update s.queue.mem m none } }
        looper := .polling (-1)
        log := s.log ++ [.recycled m] } := by
  obtain ⟨⟨m, hpc⟩, n, hn⟩ := h
  simp only [exec, hpc] at hn
  obtain ⟨mem, hmem, hn⟩ := Outcome.bind_eq_done.mp hn
  obtain ⟨hlive, rfl⟩ := Heap.delete_eq_done.mp hmem
  exact ⟨m, hpc, hlive, (Outcome.done.inj hn).symm⟩

/-- A producer that does its two steps does what `enqueueMessage` does. -/
theorem enqueueMessage_of_steps (h : Step s (.enqueue p m when) t) :
    Completes (fun n => s.queue.enqueueMessage n (some m) when)
      (false, if t.owes p then t.queue.wake else t.queue) := by
  obtain ⟨hp, hlive, ⟨ht, rfl⟩ | ⟨target, q, ht, ⟨n, hq⟩, rfl⟩⟩ := step_enqueue h
  · exact ⟨0, by simp [MessageQueue.enqueueMessage_refused hlive ht, hp]⟩
  · refine ⟨n, ?_⟩
    simp only [MessageQueue.enqueueMessage_accepted (ht ▸ Option.some_ne_none target), hq,
      Outcome.done_bind, Function.update_self]

end Sys

end ThreadManager
