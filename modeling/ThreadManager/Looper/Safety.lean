import ThreadManager.Looper.Delivery

/-! At most one delivery, and no use after `recycle`.

    If every message is passed to `enqueueMessage` once at most, the linked messages are a list of
    live messages apart from those the looper took, and the looper holds the last one it took. So no
    link that is followed leads to a recycled message: `Safe` is that invariant, and from it no step
    can read or write an object that is gone, not even a step that fails. -/

namespace ThreadManager
open Schemes

def Event.returnedMsg : Event → Option Addr
  | .returned m _ _ => some m
  | _ => none

def Event.dispatchedMsg : Event → Option Addr
  | .dispatched m _ _ => some m
  | _ => none

def Event.recycledMsg : Event → Option Addr
  | .recycled m => some m
  | _ => none

/-- The message the looper took from the queue and has not recycled. -/
def Pc.held : Pc → List Addr
  | .dispatching m => [m]
  | .recycling m => [m]
  | _ => []

/-- The message the looper dispatched and has not recycled. -/
def Pc.served : Pc → List Addr
  | .recycling m => [m]
  | _ => []

theorem Pc.served_sublist (pc : Pc) : pc.served.Sublist pc.held := by
  cases pc <;> simp [Pc.served, Pc.held]

namespace Sys

/-- The messages `next` returned, oldest first. -/
def returnedMsgs (s : Sys) : List Addr := s.log.filterMap Event.returnedMsg

/-- The messages dispatched, oldest first. -/
def dispatchedMsgs (s : Sys) : List Addr := s.log.filterMap Event.dispatchedMsg

/-- The messages recycled, oldest first. -/
def recycledMsgs (s : Sys) : List Addr := s.log.filterMap Event.recycledMsg

/-- The messages accepted, oldest first. -/
def acceptedMsgs (s : Sys) : List Addr := s.accepted.map Prod.fst

/-- If the step passes a message to `enqueueMessage`, it is alive and was not passed before. -/
def Fresh (s : Sys) (a : Act) : Prop :=
  ∀ p m when, a = .enqueue p m when → m ∉ s.submitted ∧ (s.queue.mem m).isSome

/-- What holds in a run in which every message is enqueued once at most; `xs` is linked. -/
structure Safe (s : Sys) (xs : List Addr) : Prop where
  fwd : s.queue.mInboundQueue.Fwd xs
  taken : ∀ m ∈ xs ++ s.returnedMsgs, m ∈ s.acceptedMsgs
  nodup : (xs ++ s.returnedMsgs).Nodup
  once : s.acceptedMsgs.Nodup
  submitted : ∀ m ∈ s.acceptedMsgs, m ∈ s.submitted
  target : ∀ m g, (m, g) ∈ s.accepted → m ∉ s.recycledMsgs → s.queue.target m = some g
  gone : ∀ m ∈ s.recycledMsgs, s.queue.mem m = none
  dispatched : ∀ m g n, .dispatched m g n ∈ s.log → (m, g) ∈ s.accepted
  held : s.returnedMsgs = s.recycledMsgs ++ s.looper.held
  served : s.dispatchedMsgs = s.recycledMsgs ++ s.looper.served

variable {s t : Sys} {a : Act} {m : Addr} {p : ℕ} {when now : ℤ} {g : Option Target}
  {xs : List Addr} {mem : Heap (Link Message)} {mPoll : WakePipe} {tr : List (Taken Sys Act)}

namespace Safe

/-- The message the looper holds is alive, with the target it was accepted with. -/
theorem held_target (h : s.Safe xs) (hm : m ∈ s.looper.held) :
    m ∉ xs ∧ m ∉ s.recycledMsgs ∧ (s.queue.mem m).isSome ∧
      ∃ target, (m, target) ∈ s.accepted ∧ s.queue.target m = some target := by
  have hret : m ∈ s.returnedMsgs := by rw [h.held]; exact List.mem_append_right _ hm
  have hnd := h.nodup
  rw [List.nodup_append] at hnd
  have hrec : m ∉ s.recycledMsgs := by
    have hnd' := hnd.2.1
    rw [h.held, List.nodup_append] at hnd'
    exact fun hr => hnd'.2.2 m hr m hm rfl
  obtain ⟨⟨_, target⟩, hacc, rfl⟩ := List.mem_map.mp (h.taken m (List.mem_append_right _ hret))
  have htarget := h.target _ _ hacc hrec
  exact ⟨fun hx => hnd.2.2 _ hx _ hret rfl, hrec,
    MessageQueue.live_of_target (by simp [htarget]), target, hacc, htarget⟩

theorem dispatched_nodup (h : s.Safe xs) : s.dispatchedMsgs.Nodup := by
  have hret : s.returnedMsgs.Nodup := (List.nodup_append.mp h.nodup).2.1
  have hsub : s.dispatchedMsgs.Sublist s.returnedMsgs := by
    rw [h.served, h.held]
    exact List.Sublist.append_left (Pc.served_sublist s.looper) _
  exact hret.sublist hsub

/-- A message that was not passed to `enqueueMessage` is nowhere. -/
theorem fresh_out (h : s.Safe xs) (hm : m ∉ s.submitted) :
    m ∉ s.acceptedMsgs ∧ m ∉ xs ∧ m ∉ s.returnedMsgs := by
  have hacc : m ∉ s.acceptedMsgs := fun ha => hm (h.submitted m ha)
  exact ⟨hacc, fun hx => hacc (h.taken m (List.mem_append_left _ hx)),
    fun hr => hacc (h.taken m (List.mem_append_right _ hr))⟩

end Safe

theorem safe_start : (start mem mPoll).Safe [] where
  fwd := Queue.fwd_empty mem
  taken := by simp [start, returnedMsgs]
  nodup := by simp [start, returnedMsgs]
  once := by simp [start, acceptedMsgs]
  submitted := by simp [start, acceptedMsgs]
  target := by simp [start]
  gone := by simp [start, recycledMsgs]
  dispatched := by simp [start]
  held := rfl
  served := rfl

theorem Safe.createMessage (h : s.Safe xs) (hstep : Step s (.createMessage m g now) t) :
    t.Safe xs := by
  obtain ⟨hnew, hlog, rfl⟩ := step_createMessage hstep
  refine { h with fwd := MessageQueue.newMessage_fwd hnew h.fwd, target := ?_, gone := ?_ }
  · intro x target hx hrec
    have htarget := h.target x target hx hrec
    have hlive : (s.queue.mem x).isSome := MessageQueue.live_of_target (by simp [htarget])
    exact (MessageQueue.keepsAt_newMessage hlive hnew).target.trans htarget
  · intro x hx
    have hne : x ≠ m := by
      rintro rfl
      obtain ⟨e, he, hex⟩ := List.mem_filterMap.mp hx
      cases e <;> simp [Event.recycledMsg] at hex
      subst hex
      exact hlog he
    exact (Heap.alloc_of_ne hne).trans (h.gone x hx)

theorem gone_of_keeps {h h' : Heap (Link Message)} (hk : KeepsAt h h' m) (hm : h m = none) :
    h' m = none := by
  have hlive := hk.live
  rw [hm, Option.isSome_none] at hlive
  exact Option.not_isSome_iff_eq_none.mp (by simp [hlive])

/-- Accepting a new message wherever it goes in the list. -/
theorem Safe.accept (h : s.Safe xs) {q : Queue Message} {ys : List Addr} {target : Target}
    (howes : ℕ → Bool) (hm : m ∉ s.submitted) (ht : s.queue.target m = some target)
    (hfwd : q.Fwd ys) (hperm : ys.Perm (m :: xs)) (hk : Keeps s.queue.mem q.mem) :
    Safe { s with
      queue := { s.queue with mInboundQueue := q }
      owes := howes
      accepted := s.accepted ++ [(m, target)]
      submitted := s.submitted ++ [m] } ys := by
  obtain ⟨hacc, hx, hret⟩ := h.fresh_out hm
  have hmem : ∀ x, x ∈ (s.accepted ++ [(m, target)]).map Prod.fst ↔ x ∈ s.acceptedMsgs ∨ x = m := by
    intro x
    simp [acceptedMsgs]
  refine { h with fwd := hfwd, taken := ?_, nodup := ?_, once := ?_, submitted := ?_,
                  target := ?_, gone := ?_, dispatched := ?_ }
  · intro x hx'
    refine (hmem x).mpr ?_
    rcases List.mem_append.mp hx' with hx' | hx'
    · rcases List.mem_cons.mp (hperm.mem_iff.mp hx') with rfl | hx'
      · exact Or.inr rfl
      · exact Or.inl (h.taken x (List.mem_append_left _ hx'))
    · exact Or.inl (h.taken x (List.mem_append_right _ hx'))
  · refine ((hperm.append_right _).nodup_iff).mpr ?_
    rw [List.cons_append, List.nodup_cons, List.mem_append]
    exact ⟨not_or.mpr ⟨hx, hret⟩, h.nodup⟩
  · have honce := h.once.concat hacc
    rw [List.concat_eq_append] at honce
    simpa [acceptedMsgs] using honce
  · intro x hx'
    rw [List.mem_append, List.mem_singleton]
    exact ((hmem x).mp hx').imp_left (h.submitted x)
  · intro x target' hx' hrec
    refine (hk x).target.trans ?_
    rcases List.mem_append.mp hx' with hx' | hx'
    · exact h.target x target' hx' hrec
    · obtain ⟨rfl, rfl⟩ := Prod.mk.inj (List.mem_singleton.mp hx')
      exact ht
  · exact fun x hx' => gone_of_keeps (hk x) (h.gone x hx')
  · exact fun x target' n hx' => List.mem_append_left _ (h.dispatched x target' n hx')

theorem Safe.enqueue (h : s.Safe xs) (hstep : Step s (.enqueue p m when) t)
    (hfresh : m ∉ s.submitted) : ∃ ys, t.Safe ys := by
  obtain ⟨-, hlive, ⟨-, rfl⟩ | ⟨target, q, ht, hdone, rfl⟩⟩ := step_enqueue hstep
  · exact ⟨xs, { h with submitted := fun x hx => List.mem_append_left _ (h.submitted x hx) }⟩
  · obtain ⟨-, hfwd, hrel⟩ :=
      Queue.enqueueAtTimeOut_completes h.fwd (h.fresh_out hfresh).2.1 hlive hdone
    exact ⟨_, h.accept _ hfresh ht hfwd (insert_perm _ when xs m) hrel.keeps⟩

/-- In `next` the looper holds nothing. -/
theorem Safe.inNext (h : s.Safe xs) (hpc : s.looper = .inNext) :
    s.returnedMsgs = s.recycledMsgs ∧ s.dispatchedMsgs = s.recycledMsgs := by
  have hheld := h.held
  have hserved := h.served
  rw [hpc] at hheld hserved
  exact ⟨hheld.trans (List.append_nil _), hserved.trans (List.append_nil _)⟩

/-- The first message comes off and is dropped. -/
theorem Safe.drop (h : s.Safe (m :: xs)) (hpc : s.looper = .inNext) {queue : MessageQueue}
    (timeout : ℤ) (hfwd : queue.mInboundQueue.Fwd xs) (hk : Keeps s.queue.mem queue.mem) :
    (s.resume now queue (.again timeout)).Safe xs := by
  obtain ⟨hheld, hserved⟩ := h.inNext hpc
  refine { h with fwd := hfwd, taken := ?_, nodup := ?_, target := ?_, gone := ?_,
                  held := ?_, served := ?_ }
  · exact fun x hx => h.taken x (List.mem_cons_of_mem _ hx)
  · exact (List.nodup_cons.mp h.nodup).2
  · exact fun x target hx hrec => (hk x).target.trans (h.target x target hx hrec)
  · exact fun x hx => gone_of_keeps (hk x) (h.gone x hx)
  · exact hheld.trans (List.append_nil _).symm
  · exact hserved.trans (List.append_nil _).symm

/-- The first message comes off and is returned. -/
theorem Safe.take (h : s.Safe (m :: xs)) (hpc : s.looper = .inNext) {queue : MessageQueue}
    (hfwd : queue.mInboundQueue.Fwd xs) (hk : Keeps s.queue.mem queue.mem) :
    (s.resume now queue (.message m)).Safe xs := by
  obtain ⟨hheld, hserved⟩ := h.inNext hpc
  have hret : (s.resume now queue (.message m)).returnedMsgs = s.returnedMsgs ++ [m] := by
    simp [resume, returnedMsgs, Event.returnedMsg]
  have hrec : (s.resume now queue (.message m)).recycledMsgs = s.recycledMsgs := by
    simp [resume, recycledMsgs, Event.recycledMsg]
  have hdis : (s.resume now queue (.message m)).dispatchedMsgs = s.dispatchedMsgs := by
    simp [resume, dispatchedMsgs, Event.dispatchedMsg]
  have hperm : (xs ++ (s.returnedMsgs ++ [m])).Perm (m :: xs ++ s.returnedMsgs) := by
    rw [← List.append_assoc]
    exact List.perm_append_singleton m _
  refine { h with fwd := hfwd, taken := ?_, nodup := ?_, target := ?_, gone := ?_,
                  dispatched := ?_, held := ?_, served := ?_ }
  · rw [hret]
    exact fun x hx => h.taken x (hperm.mem_iff.mp hx)
  · rw [hret]
    exact hperm.nodup_iff.mpr h.nodup
  · rw [hrec]
    exact fun x target hx hno => (hk x).target.trans (h.target x target hx hno)
  · rw [hrec]
    exact fun x hx => gone_of_keeps (hk x) (h.gone x hx)
  · intro x target n hx
    simp only [resume, List.mem_append, List.mem_singleton, reduceCtorEq, or_false] at hx
    exact h.dispatched x target n hx
  · rw [hret, hrec, hheld]
    rfl
  · rw [hdis, hrec, hserved]
    exact (List.append_nil _).symm

theorem Safe.next (h : s.Safe xs) (hstep : Step s (.next now) t) : ∃ ys, t.Safe ys := by
  obtain ⟨hpc, r, queue, hrun, rfl⟩ := step_next hstep
  have hk := MessageQueue.nextLocked_keeps hrun
  cases xs with
  | nil =>
    rw [MessageQueue.nextLocked_nil h.fwd.head, Outcome.done.injEq, Prod.mk.injEq] at hrun
    obtain ⟨rfl, rfl⟩ := hrun
    obtain ⟨hheld, hserved⟩ := h.inNext hpc
    exact ⟨[], { h with held := hheld.trans (List.append_nil _).symm
                        served := hserved.trans (List.append_nil _).symm }⟩
  | cons m xs =>
    obtain ⟨queue', hq', hfwd, -⟩ := MessageQueue.nextLocked_fwd now h.fwd
    rw [hrun, Outcome.done.injEq, Prod.mk.injEq] at hq'
    obtain ⟨rfl, rfl⟩ := hq'
    refine ⟨xs, ?_⟩
    rcases lt_or_ge now (s.queue.stamp m) with hlt | hge
    · rw [if_pos hlt]
      exact h.drop hpc _ hfwd hk
    · rw [if_neg (not_lt.mpr hge)]
      exact h.take hpc hfwd hk

/-- The events of a dispatch, seen by the three records. -/
theorem filterMap_dispatchMessage (target : Target) (m : Addr) (x : Message) (now : ℤ) :
    (dispatchMessage target m x now).filterMap Event.returnedMsg = [] ∧
      (dispatchMessage target m x now).filterMap Event.recycledMsg = [] ∧
      (dispatchMessage target m x now).filterMap Event.dispatchedMsg = [m] ∧
      ∀ m' g n, .dispatched m' g n ∈ dispatchMessage target m x now → m' = m ∧ g = target := by
  obtain ⟨hown, -⟩ := handled_consumeMessage m x now
  have hnone : ∀ f : Event → Option Addr, f (.handled m) = none → f .notified = none →
      (consumeMessage m x now).filterMap f = [] := by
    intro f hh hn
    rw [List.filterMap_eq_nil_iff]
    intro e he
    rcases hown e he with rfl | rfl
    · exact hh
    · exact hn
  refine ⟨hnone _ rfl rfl, hnone _ rfl rfl, ?_, ?_⟩
  · exact congrArg (m :: ·) (hnone Event.dispatchedMsg rfl rfl)
  · intro m' g n hm
    rcases List.mem_cons.mp hm with he | hm
    · obtain ⟨rfl, rfl, -⟩ := Event.dispatched.inj he
      exact ⟨rfl, rfl⟩
    · rcases hown _ hm with he | he <;> cases he

theorem Safe.dispatch (h : s.Safe xs) (hstep : Step s (.dispatch now) t) : t.Safe xs := by
  obtain ⟨m, x, target, hpc, hx, ht, rfl⟩ := step_dispatch hstep
  obtain ⟨hret, hrec, hdis, hev⟩ := filterMap_dispatchMessage target m x.obj now
  obtain ⟨-, -, -, target', hacc, htarget⟩ := h.held_target (m := m) (by simp [hpc, Pc.held])
  have htt : target' = target := by
    have hx' : s.queue.target m = x.obj.getTarget := by simp [MessageQueue.target, hx]
    rw [htarget, ht, Option.some.injEq] at hx'
    exact hx'
  have hheld : s.returnedMsgs = s.recycledMsgs ++ [m] := by simpa [hpc, Pc.held] using h.held
  have hserved : s.dispatchedMsgs = s.recycledMsgs := by simpa [hpc, Pc.served] using h.served
  simp only [returnedMsgs, recycledMsgs, dispatchedMsgs] at hheld hserved
  refine { fwd := h.fwd, once := h.once, submitted := h.submitted, taken := ?_, nodup := ?_,
           target := ?_, gone := ?_, dispatched := ?_, held := ?_, served := ?_ }
  · simpa only [returnedMsgs, acceptedMsgs, List.filterMap_append, hret, List.append_nil]
      using h.taken
  · simpa only [returnedMsgs, List.filterMap_append, hret, List.append_nil] using h.nodup
  · simpa only [recycledMsgs, List.filterMap_append, hrec, List.append_nil] using h.target
  · simpa only [recycledMsgs, List.filterMap_append, hrec, List.append_nil] using h.gone
  · intro m' g n hm
    rcases List.mem_append.mp hm with hm | hm
    · exact h.dispatched m' g n hm
    · obtain ⟨rfl, rfl⟩ := hev m' g n hm
      exact htt ▸ hacc
  · simp only [returnedMsgs, recycledMsgs, List.filterMap_append, hret, hrec, List.append_nil,
      hheld, Pc.held]
  · simp only [dispatchedMsgs, recycledMsgs, List.filterMap_append, hdis, hrec, List.append_nil,
      hserved, Pc.served]

theorem Safe.recycle (h : s.Safe xs) (hstep : Step s .recycle t) : t.Safe xs := by
  obtain ⟨m, hpc, -, rfl⟩ := step_recycle hstep
  obtain ⟨hout, hrec, -⟩ := h.held_target (m := m) (by simp [hpc, Pc.held])
  have hheld : s.returnedMsgs = s.recycledMsgs ++ [m] := by simpa [hpc, Pc.held] using h.held
  have hserved : s.dispatchedMsgs = s.recycledMsgs ++ [m] := by
    simpa [hpc, Pc.served] using h.served
  have hret' : (s.log ++ [Event.recycled m]).filterMap Event.returnedMsg = s.returnedMsgs := by
    simp [returnedMsgs, Event.returnedMsg]
  have hrec' : (s.log ++ [Event.recycled m]).filterMap Event.recycledMsg =
      s.recycledMsgs ++ [m] := by
    simp [recycledMsgs, Event.recycledMsg]
  have hdis' : (s.log ++ [Event.recycled m]).filterMap Event.dispatchedMsg = s.dispatchedMsgs := by
    simp [dispatchedMsgs, Event.dispatchedMsg]
  have hother : ∀ x, x ≠ m → Function.update s.queue.mem m none x = s.queue.mem x :=
    fun x hx => Function.update_of_ne hx _ _
  refine { once := h.once, submitted := h.submitted, fwd := ?_, taken := ?_, nodup := ?_,
           target := ?_, gone := ?_, dispatched := ?_, held := ?_, served := ?_ }
  · refine ⟨h.fwd.next.congr ?_, h.fwd.tail⟩
    intro x hx
    exact congrArg _ (hother x (ne_of_mem_of_not_mem hx hout))
  · simpa only [returnedMsgs, acceptedMsgs, hret'] using h.taken
  · simpa only [returnedMsgs, hret'] using h.nodup
  · intro x target hx hno
    simp only [recycledMsgs, hrec', List.mem_append, List.mem_singleton, not_or] at hno
    have hk : KeepsAt s.queue.mem (Function.update s.queue.mem m none) x :=
      congrArg _ (hother x hno.2)
    exact hk.target.trans (h.target x target hx hno.1)
  · intro x hx
    simp only [recycledMsgs, hrec', List.mem_append, List.mem_singleton] at hx
    rcases hx with hx | rfl
    · exact (hother x (ne_of_mem_of_not_mem hx hrec)).trans (h.gone x hx)
    · exact Function.update_self _ _ _
  · intro x target n hx
    simp only [List.mem_append, List.mem_singleton, reduceCtorEq, or_false] at hx
    exact h.dispatched x target n hx
  · exact (hret'.trans hheld).trans (hrec'.symm.trans (List.append_nil _).symm)
  · exact (hdis'.trans hserved).trans (hrec'.symm.trans (List.append_nil _).symm)

/-- Every step keeps the invariant, as long as no message is enqueued twice. -/
theorem Safe.step (h : s.Safe xs) (hstep : Step s a t) (hfresh : s.Fresh a) :
    ∃ ys, t.Safe ys := by
  cases a with
  | createMessage m g now => exact ⟨xs, h.createMessage hstep⟩
  | enqueue p m when => exact h.enqueue hstep (hfresh p m when rfl).1
  | wake p =>
    obtain ⟨-, rfl⟩ := step_wake hstep
    exact ⟨xs, { h with }⟩
  | poll =>
    obtain ⟨⟨timeout, hpc⟩, -, mPoll, -, rfl⟩ := step_poll hstep
    exact ⟨xs, { h with held := h.held.trans (by rw [hpc]; rfl)
                        served := h.served.trans (by rw [hpc]; rfl) }⟩
  | interrupt =>
    obtain ⟨⟨timeout, hpc⟩, rfl⟩ := step_interrupt hstep
    exact ⟨xs, { h with held := h.held.trans (by rw [hpc]; rfl)
                        served := h.served.trans (by rw [hpc]; rfl) }⟩
  | next now => exact h.next hstep
  | dispatch now => exact ⟨xs, h.dispatch hstep⟩
  | recycle => exact ⟨xs, h.recycle hstep⟩

theorem Safe.of_run (hrun : Runs mem mPoll tr s) (hfresh : ∀ x ∈ tr, x.pre.Fresh x.act) :
    ∃ xs, s.Safe xs :=
  hrun.invariant (I := fun s => ∃ xs, s.Safe xs) ⟨[], safe_start⟩
    fun x hx hstep ⟨_, h⟩ => h.step hstep (hfresh x hx)

theorem Safe.pre (hrun : Runs mem mPoll tr s) (hfresh : ∀ x ∈ tr, x.pre.Fresh x.act)
    {x : Taken Sys Act} (hx : x ∈ tr) : ∃ xs, x.pre.Safe xs :=
  hrun.invariant_pre (I := fun s => ∃ xs, s.Safe xs) ⟨[], safe_start⟩
    (fun x hx hstep ⟨_, h⟩ => h.step hstep (hfresh x hx)) hx

/-! ### No step meets a message that is gone -/

theorem Safe.enqueue_not_dangling (h : s.Safe xs) (hm : m ∉ s.submitted)
    (hlive : (s.queue.mem m).isSome) (n : ℕ) : s.enqueue n p m when ≠ .fault .dangling := by
  intro hfault
  obtain ⟨x, hx⟩ := Option.isSome_iff_exists.mp hlive
  simp only [Sys.enqueue, Heap.deref_some hx, Outcome.done_bind] at hfault
  cases ht : x.obj.getTarget with
  | none => simp [ht] at hfault
  | some target =>
    simp only [ht] at hfault
    rcases Outcome.bind_eq_fault.mp hfault with hfault | ⟨r, -, hfault⟩
    · rcases Outcome.bind_eq_fault.mp hfault with hfault | ⟨q, -, hfault⟩
      · exact Queue.enqueueAtTimeOut_not_dangling h.fwd (h.fresh_out hm).2.1 hlive n hfault
      · cases hfault
    · cases hfault

theorem Safe.next_not_dangling (h : s.Safe xs) : s.next now ≠ .fault .dangling := by
  intro hfault
  obtain ⟨r, queue, hrun⟩ : ∃ r queue, s.queue.nextLocked now = .done (r, queue) := by
    cases xs with
    | nil => exact ⟨_, _, MessageQueue.nextLocked_nil h.fwd.head⟩
    | cons x xs =>
      obtain ⟨queue, hrun, -⟩ := MessageQueue.nextLocked_fwd now h.fwd
      exact ⟨_, _, hrun⟩
  simp [Sys.next, hrun] at hfault

/-- No step of any thread, even one that fails, reads or writes a message that is gone. -/
theorem Safe.not_dangling (h : s.Safe xs) (he : s.Enabled a) (hfresh : s.Fresh a) (n : ℕ) :
    exec n s a ≠ .fault .dangling := by
  intro hfault
  cases a with
  | createMessage m g now => cases hfault
  | enqueue p m when =>
    obtain ⟨hm, hlive⟩ := hfresh p m when rfl
    exact h.enqueue_not_dangling hm hlive n hfault
  | wake p => cases hfault
  | poll =>
    rcases Outcome.bind_eq_fault.mp hfault with hfault | ⟨mPoll, -, hfault⟩
    · obtain ⟨mPoll, hdone, -⟩ :=
        WakePipe.awoken_empties s.queue.mPoll (Nat.lt_succ_self s.queue.mPoll.count)
      exact (loop_stable WakePipe.awokenPass s.queue.mPoll).ne_fault (Or.inl ⟨mPoll, hdone⟩) n
        hfault
    · cases hfault
  | interrupt => cases hfault
  | next now => exact h.next_not_dangling hfault
  | dispatch now =>
    obtain ⟨m, hpc⟩ := he
    obtain ⟨-, -, hlive, target, -, ht⟩ := h.held_target (m := m) (by simp [hpc, Pc.held])
    obtain ⟨x, hx⟩ := Option.isSome_iff_exists.mp hlive
    have htarget : x.obj.getTarget = some target := by
      simpa [MessageQueue.target, hx] using ht
    simp [exec, hpc, Sys.dispatch, Heap.deref_some hx, htarget] at hfault
  | recycle =>
    obtain ⟨m, hpc⟩ := he
    obtain ⟨-, -, hlive, -⟩ := h.held_target (m := m) (by simp [hpc, Pc.held])
    have hdel := Heap.delete_eq_done.mpr ⟨hlive, rfl⟩
    simp [exec, hpc, Sys.recycle, hdel] at hfault

/-! ### At most one delivery -/

/-- A message that is dispatched was accepted before, with the target it is dispatched to. -/
theorem Safe.dispatched_accepted (h : s.Safe xs) (hstep : Step s a t) (hfresh : s.Fresh a)
    {target : Target} (hev : .dispatched m target now ∈ t.log) : (m, target) ∈ s.accepted := by
  obtain ⟨ys, ht⟩ := h.step hstep hfresh
  rcases em (Act.ofLooper a) with ha | ha
  · have hacc : t.accepted = s.accepted := hstep.of_looper ha
    exact hacc ▸ ht.dispatched m target now hev
  · rw [(hstep.of_producer ha).2] at hev
    exact h.dispatched m target now hev

/-- A message is accepted, dispatched and recycled once at most: dispatched only after it was
    accepted and to the target it had then, recycled straight after its dispatch. From then on it is
    gone, and no further step, even one that fails, reads or writes a message that is gone. -/
structure AtMostOnce (tr : List (Taken Sys Act)) (s : Sys) : Prop where
  accepted : s.acceptedMsgs.Nodup
  dispatched : s.dispatchedMsgs.Nodup
  recycled : s.recycledMsgs.Nodup
  target : ∀ x ∈ tr, ∀ m target n, .dispatched m target n ∈ x.post.log →
    (m, target) ∈ x.pre.accepted
  delivered : ∀ x ∈ tr, x.act = .recycle → ∃ m g n₁ target n₂ hs,
    x.pre.Delivered m g n₁ target n₂ hs ∧ x.post.log = x.pre.log ++ [.recycled m]
  gone : ∀ m ∈ s.recycledMsgs, s.queue.mem m = none
  untouched : ∀ a, s.Enabled a → s.Fresh a → ∀ n, exec n s a ≠ .fault .dangling

/-- Every run in which every message is enqueued once at most delivers it once at most. -/
theorem at_most_once (hrun : Runs mem mPoll tr s) (hfresh : ∀ x ∈ tr, x.pre.Fresh x.act) :
    AtMostOnce tr s := by
  obtain ⟨xs, h⟩ := Safe.of_run hrun hfresh
  refine { accepted := h.once, dispatched := h.dispatched_nodup, recycled := ?_, target := ?_,
           delivered := ?_, gone := h.gone, untouched := ?_ }
  · have hret : s.returnedMsgs.Nodup := (List.nodup_append.mp h.nodup).2.1
    rw [h.held] at hret
    exact (List.nodup_append.mp hret).1
  · intro x hx m target n hev
    obtain ⟨ys, hpre⟩ := Safe.pre hrun hfresh hx
    exact hpre.dispatched_accepted (hrun.step_of_mem hx) (hfresh x hx) hev
  · intro x hx hact
    obtain ⟨m, g, n₁, target, n₂, hs, hdel, hpost, -⟩ := recycle_delivered hrun hx hact
    exact ⟨m, g, n₁, target, n₂, hs, hdel, hpost⟩
  · exact fun a he hf n => h.not_dangling he hf n

/-- A message sent to the head overtakes another, is delivered and recycled. -/
theorem at_most_once_run : ∃ tr s, Runs twoMessages pipe tr s ∧
    s.log = [.returned 1 2 3, .dispatched 1 0 4, .handled 1, .notified, .recycled 1] ∧
    AtMostOnce tr s := by
  have h₀ : Runs twoMessages pipe [] _ := Run.nil
  have h₁ := h₀.snoc (a := Act.enqueue 0 0 5) ⟨rfl, 1, rfl⟩
  have h₂ := h₁.snoc (a := Act.enqueue 1 1 0) ⟨rfl, 1, rfl⟩
  have h₃ := h₂.snoc (a := Act.wake 0) ⟨rfl, 0, rfl⟩
  have h₄ := h₃.snoc (a := Act.poll) ⟨⟨⟨_, rfl⟩, by decide⟩, 1, rfl⟩
  have h₅ := h₄.snoc (a := Act.next 3) ⟨rfl, 0, rfl⟩
  have h₆ := h₅.snoc (a := Act.dispatch 4) ⟨⟨_, rfl⟩, 0, rfl⟩
  have h₇ := h₆.snoc (a := Act.recycle) ⟨⟨_, rfl⟩, 0, rfl⟩
  refine ⟨_, _, h₇, rfl, at_most_once h₇ ?_⟩
  simp only [List.nil_append, List.cons_append, List.forall_mem_cons]
  refine ⟨?_, ?_, ?_, ?_, ?_, ?_, ?_, by simp⟩
  · rintro _ _ _ ⟨⟩
    decide
  · rintro _ _ _ ⟨⟩
    decide
  all_goals rintro _ _ _ ⟨⟩

end Sys

end ThreadManager
