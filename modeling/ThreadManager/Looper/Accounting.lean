import ThreadManager.Looper.Safety
import ThreadManager.Looper.WakeUp

/-! Where the accepted messages are.

    `next` takes the first message off the list whether it is due or not, and one that is not due is
    in no list after that. So an accepted message is linked, dropped, held by the looper or recycled,
    and in one of these places only; one that was dropped is neither delivered nor freed. How many
    come off is bounded by the wakes: only an enqueue that finds the queue empty causes one. Where every
    enqueue does, the messages are delivered in the order in which they were accepted. -/

namespace ThreadManager
open Schemes

namespace Sys

/-- The message that is accepted. -/
def accepts (x : Taken Sys Act) : Option Addr :=
  match x.act with
  | .enqueue _ m _ => (x.pre.queue.target m).map fun _ => m
  | _ => none

/-- The message that `next` takes off the list. -/
def takes (x : Taken Sys Act) : Option Addr :=
  match x.act with
  | .next _ => x.pre.queue.mInboundQueue.head
  | _ => none

/-- The message that `next` takes off and drops, because its stamp is after the reading. -/
def drops (x : Taken Sys Act) : Option Addr :=
  match x.act with
  | .next now => x.pre.queue.mInboundQueue.head.filter fun m => now < x.pre.queue.stamp m
  | _ => none

/-- The message that `next` takes off and returns. -/
def returns (x : Taken Sys Act) : Option Addr :=
  match x.act with
  | .next now => x.pre.queue.mInboundQueue.head.filter fun m => x.pre.queue.stamp m ≤ now
  | _ => none

/-- The messages `next` took off, oldest first. -/
def takenMsgs (tr : List (Taken Sys Act)) : List Addr := tr.filterMap takes

/-- The messages `next` dropped, oldest first. -/
def droppedMsgs (tr : List (Taken Sys Act)) : List Addr := tr.filterMap drops

variable {s t : Sys} {a : Act} {m : Addr} {p : ℕ} {when now : ℤ} {xs : List Addr}
  {mem : Heap (Link Message)} {mPoll : WakePipe} {tr : List (Taken Sys Act)} {x : Taken Sys Act}

/-! ### What one step accepts and takes off -/

theorem acceptedMsgs_step (h : Step s a t) :
    t.acceptedMsgs = s.acceptedMsgs ++ (accepts ⟨s, a, t⟩).toList := by
  rcases em (Act.ofLooper a) with ha | ha
  · have hacc : t.acceptedMsgs = s.acceptedMsgs := congrArg (List.map Prod.fst) (h.of_looper ha)
    cases a <;> first | exact absurd ha id | simp [accepts, hacc]
  · cases a with
    | createMessage m g now =>
      obtain ⟨-, -, rfl⟩ := step_createMessage h
      simp [accepts, acceptedMsgs]
    | enqueue p m when =>
      obtain ⟨-, -, ⟨ht, rfl⟩ | ⟨target, q, ht, -, rfl⟩⟩ := step_enqueue h <;>
        simp [accepts, acceptedMsgs, ht]
    | wake p =>
      obtain ⟨-, rfl⟩ := step_wake h
      simp [accepts, acceptedMsgs]
    | _ => exact absurd trivial ha

/-- What comes off is returned or dropped. -/
theorem takes_cases (x : Taken Sys Act) :
    takes x = none ∧ returns x = none ∧ drops x = none ∨
      ∃ m, takes x = some m ∧ (returns x = some m ∧ drops x = none ∨
        returns x = none ∧ drops x = some m) := by
  obtain ⟨s, a, t⟩ := x
  cases a with
  | next now =>
    simp only [takes, returns, drops]
    cases s.queue.mInboundQueue.head with
    | none => exact Or.inl ⟨rfl, rfl, rfl⟩
    | some m =>
      refine Or.inr ⟨m, rfl, ?_⟩
      rcases lt_or_ge now (s.queue.stamp m) with hlt | hge
      · exact Or.inr ⟨by simp [hlt], by simp [hlt]⟩
      · exact Or.inl ⟨by simp [hge], by simp [hge]⟩
  | _ => exact Or.inl ⟨rfl, rfl, rfl⟩

theorem returnedMsgs_step (h : Step s a t) :
    t.returnedMsgs = s.returnedMsgs ++ (returns ⟨s, a, t⟩).toList := by
  have hsame : t.log = s.log → returns ⟨s, a, t⟩ = none →
      t.returnedMsgs = s.returnedMsgs ++ (returns ⟨s, a, t⟩).toList := by
    intro hlog hnone
    simp [returnedMsgs, hlog, hnone]
  rcases em (Act.ofLooper a) with ha | ha
  · cases a with
    | poll =>
      obtain ⟨-, -, mPoll, -, rfl⟩ := step_poll h
      exact hsame rfl rfl
    | interrupt =>
      obtain ⟨-, rfl⟩ := step_interrupt h
      exact hsame rfl rfl
    | next now =>
      obtain ⟨-, r, queue, hrun, rfl⟩ := step_next h
      rcases MessageQueue.nextLocked_cases hrun with ⟨hh, rfl, -⟩ | ⟨b, q, hh, -, -, hres⟩
      · exact hsame rfl (by simp [returns, hh])
      · rcases hres with ⟨hlt, rfl, -⟩ | ⟨hle, rfl, -⟩
        · exact hsame rfl (by simp [returns, hh, hlt])
        · simp [resume, returnedMsgs, returns, hh, Option.filter_some, hle, Event.returnedMsg]
    | dispatch now =>
      obtain ⟨b, y, target, -, -, -, rfl⟩ := step_dispatch h
      obtain ⟨hret, -⟩ := filterMap_dispatchMessage target b y.obj now
      simp [returnedMsgs, hret, returns]
    | recycle =>
      obtain ⟨b, -, -, rfl⟩ := step_recycle h
      simp [returnedMsgs, Event.returnedMsg, returns]
    | _ => exact absurd ha id
  · refine hsame (h.of_producer ha).2 ?_
    cases a <;> first | rfl | exact absurd trivial ha

/-- The end of a poll, or of one that EINTR cut short. -/
theorem Safe.polled {timeout : ℤ} (h : s.Safe xs) (hpc : s.looper = .polling timeout)
    (mPoll : WakePipe) :
    Safe { s with queue := { s.queue with mPoll }, looper := .inNext } xs :=
  { h with held := h.held.trans (by rw [hpc]; rfl), served := h.served.trans (by rw [hpc]; rfl) }

/-- The list after a step: an accepted message is somewhere in it, and the one that comes off was its
    first. -/
theorem Safe.list_step (h : s.Safe xs) (hstep : Step s a t) (hfresh : s.Fresh a) :
    ∃ ys, t.Safe ys ∧ (accepts ⟨s, a, t⟩ = none ∧ xs = (takes ⟨s, a, t⟩).toList ++ ys ∨
      ∃ m, accepts ⟨s, a, t⟩ = some m ∧ takes ⟨s, a, t⟩ = none ∧ ys.Perm (m :: xs)) := by
  cases a with
  | enqueue p m when =>
    obtain ⟨hm, -⟩ := hfresh p m when rfl
    obtain ⟨-, hlive, ⟨ht, rfl⟩ | ⟨target, q, ht, hdone, rfl⟩⟩ := step_enqueue hstep
    · refine ⟨xs, { h with submitted := ?_ }, Or.inl ⟨by simp [accepts, ht], rfl⟩⟩
      exact fun x hx => List.mem_append_left _ (h.submitted x hx)
    · obtain ⟨-, hfwd, hrel⟩ :=
        Queue.enqueueAtTimeOut_completes h.fwd (h.fresh_out hm).2.1 hlive hdone
      have hperm := insert_perm (stamp s.queue.mInboundQueue.mem) when xs m
      exact ⟨_, h.accept _ hm ht hfwd hperm hrel.keeps,
        Or.inr ⟨m, by simp [accepts, ht], rfl, hperm⟩⟩
  | next now =>
    obtain ⟨hpc, r, queue, hrun, rfl⟩ := step_next hstep
    have hk := MessageQueue.nextLocked_keeps hrun
    obtain ⟨ys, hsafe⟩ := h.next hstep
    refine ⟨ys, hsafe, Or.inl ⟨rfl, ?_⟩⟩
    have hys : (s.resume now queue r).queue = queue := by cases r <;> rfl
    have hfwd := hsafe.fwd
    rw [hys] at hfwd
    cases xs with
    | nil =>
      rw [MessageQueue.nextLocked_nil h.fwd.head, Outcome.done.injEq, Prod.mk.injEq] at hrun
      obtain ⟨-, rfl⟩ := hrun
      rw [hfwd.unique h.fwd]
      simp [takes, h.fwd.head]
    | cons m xs =>
      obtain ⟨queue', hq', hfwd', -⟩ := MessageQueue.nextLocked_fwd now h.fwd
      rw [hrun, Outcome.done.injEq, Prod.mk.injEq] at hq'
      obtain ⟨-, rfl⟩ := hq'
      rw [hfwd.unique hfwd']
      simp [takes, h.fwd.head]
  | createMessage m g now => exact ⟨xs, h.createMessage hstep, Or.inl ⟨rfl, rfl⟩⟩
  | dispatch now => exact ⟨xs, h.dispatch hstep, Or.inl ⟨rfl, rfl⟩⟩
  | recycle => exact ⟨xs, h.recycle hstep, Or.inl ⟨rfl, rfl⟩⟩
  | wake p =>
    obtain ⟨-, rfl⟩ := step_wake hstep
    exact ⟨xs, { h with }, Or.inl ⟨rfl, rfl⟩⟩
  | poll =>
    obtain ⟨⟨timeout, hpc⟩, -, mPoll, -, rfl⟩ := step_poll hstep
    exact ⟨xs, h.polled hpc mPoll, Or.inl ⟨rfl, rfl⟩⟩
  | interrupt =>
    obtain ⟨⟨timeout, hpc⟩, rfl⟩ := step_interrupt hstep
    exact ⟨xs, h.polled hpc s.queue.mPoll, Or.inl ⟨rfl, rfl⟩⟩

/-! ### Whole runs -/

theorem returnedMsgs_run (hrun : Runs mem mPoll tr s) : s.returnedMsgs = tr.filterMap returns :=
  hrun.invariant_steps (I := fun tr s => s.returnedMsgs = tr.filterMap returns) rfl
    fun tr s a t _ hstep h => by rw [returnedMsgs_step hstep, h, filterMap_concat]

theorem takenMsgs_concat (tr : List (Taken Sys Act)) (x : Taken Sys Act) :
    takenMsgs (tr ++ [x]) = takenMsgs tr ++ (takes x).toList :=
  filterMap_concat takes tr x

/-- What came off was returned or dropped. -/
theorem takenMsgs_perm (tr : List (Taken Sys Act)) :
    (takenMsgs tr).Perm (droppedMsgs tr ++ tr.filterMap returns) := by
  induction tr with
  | nil => exact List.Perm.refl _
  | cons x tr ih =>
    unfold takenMsgs droppedMsgs at ih ⊢
    rcases takes_cases x with ⟨htake, hret, hdrop⟩ | ⟨m, htake, ⟨hret, hdrop⟩ | ⟨hret, hdrop⟩⟩ <;>
      simp only [List.filterMap_cons, htake, hret, hdrop]
    · exact ih
    · exact (ih.cons m).trans List.perm_middle.symm
    · exact ih.cons m

/-- The list and what came off are what was accepted. -/
theorem linked_or_taken (hrun : Runs mem mPoll tr s) (hfresh : ∀ x ∈ tr, x.pre.Fresh x.act) :
    ∃ xs, s.Safe xs ∧ s.acceptedMsgs.Perm (xs ++ takenMsgs tr) := by
  refine hrun.invariant_steps (I := fun tr s => ∃ xs, s.Safe xs ∧
    s.acceptedMsgs.Perm (xs ++ takenMsgs tr)) ⟨[], safe_start, List.Perm.refl _⟩ ?_
  rintro tr' s a t hx hstep ⟨xs, h, hperm⟩
  obtain ⟨ys, hsafe, ⟨hacc, rfl⟩ | ⟨m, hacc, htake, hys⟩⟩ := h.list_step hstep (hfresh _ hx)
  · refine ⟨ys, hsafe, ?_⟩
    rw [acceptedMsgs_step hstep, hacc, Option.toList_none, List.append_nil, takenMsgs_concat]
    refine hperm.trans ?_
    rw [List.append_assoc, ← List.append_assoc ys]
    exact List.perm_append_comm
  · refine ⟨ys, hsafe, ?_⟩
    rw [acceptedMsgs_step hstep, hacc, Option.toList_some, takenMsgs_concat, htake, Option.toList_none,
      List.append_nil]
    have hcons : (s.acceptedMsgs ++ [m]).Perm (m :: (xs ++ takenMsgs tr')) :=
      (List.perm_append_singleton m _).trans (hperm.cons m)
    exact hcons.trans (hys.append_right (takenMsgs tr')).symm

/-- In every run in which every message is enqueued once at most, an accepted message is in one place
    only: linked, dropped, held by the looper or recycled. What was recycled is gone; what was
    dropped is alive and was not dispatched. -/
theorem accounting (hrun : Runs mem mPoll tr s) (hfresh : ∀ x ∈ tr, x.pre.Fresh x.act) :
    s.acceptedMsgs.Nodup ∧
    (∃ xs, s.queue.mInboundQueue.Fwd xs ∧
      s.acceptedMsgs.Perm (xs ++ (droppedMsgs tr ++ (s.recycledMsgs ++ s.looper.held)))) ∧
    (∀ m ∈ s.recycledMsgs, s.queue.mem m = none) ∧
    ∀ m ∈ droppedMsgs tr, (s.queue.mem m).isSome ∧ m ∉ s.dispatchedMsgs := by
  obtain ⟨xs, h, hperm⟩ := linked_or_taken hrun hfresh
  have hplaces : s.acceptedMsgs.Perm (xs ++ (droppedMsgs tr ++ s.returnedMsgs)) := by
    rw [returnedMsgs_run hrun]
    exact hperm.trans ((takenMsgs_perm tr).append_left xs)
  have hnodup := (List.nodup_append.mp (hplaces.nodup_iff.mp h.once)).2.1
  refine ⟨h.once, ⟨xs, h.fwd, h.held ▸ hplaces⟩, h.gone, ?_⟩
  intro m hm
  have hret : m ∉ s.returnedMsgs := fun hr => (List.nodup_append.mp hnodup).2.2 m hm m hr rfl
  have hacc : m ∈ s.acceptedMsgs :=
    hplaces.mem_iff.mpr (List.mem_append_right _ (List.mem_append_left _ hm))
  rw [h.held, List.mem_append, not_or] at hret
  constructor
  · obtain ⟨⟨_, g⟩, hg, rfl⟩ := List.mem_map.mp hacc
    exact MessageQueue.live_of_target (by simp [h.target _ g hg hret.1])
  · rw [h.served, List.mem_append, not_or]
    exact ⟨hret.1, fun hs => hret.2 ((Pc.served_sublist s.looper).subset hs)⟩

/-- A message is dropped because it is not due, the next one is delivered. -/
theorem accounting_run : ∃ tr s, Runs twoMessages pipe tr s ∧ s.acceptedMsgs = [0, 1] ∧
    droppedMsgs tr = [0] ∧ s.recycledMsgs = [1] ∧
    ∀ m ∈ droppedMsgs tr, (s.queue.mem m).isSome ∧ m ∉ s.dispatchedMsgs := by
  have h₀ : Runs twoMessages pipe [] _ := Run.nil
  have h₁ := h₀.snoc (a := Act.enqueue 0 0 5) ⟨rfl, 1, rfl⟩
  have h₂ := h₁.snoc (a := Act.wake 0) ⟨rfl, 0, rfl⟩
  have h₃ := h₂.snoc (a := Act.poll) ⟨⟨⟨_, rfl⟩, by decide⟩, 1, rfl⟩
  have h₄ := h₃.snoc (a := Act.next 0) ⟨rfl, 0, rfl⟩
  have h₅ := h₄.snoc (a := Act.enqueue 0 1 5) ⟨rfl, 1, rfl⟩
  have h₆ := h₅.snoc (a := Act.wake 0) ⟨rfl, 0, rfl⟩
  have h₇ := h₆.snoc (a := Act.poll) ⟨⟨⟨_, rfl⟩, by decide⟩, 1, rfl⟩
  have h₈ := h₇.snoc (a := Act.next 10) ⟨rfl, 0, rfl⟩
  have h₉ := h₈.snoc (a := Act.dispatch 10) ⟨⟨_, rfl⟩, 0, rfl⟩
  have h₁₀ := h₉.snoc (a := Act.recycle) ⟨⟨_, rfl⟩, 0, rfl⟩
  refine ⟨_, _, h₁₀, rfl, rfl, rfl, (accounting h₁₀ ?_).2.2.2⟩
  simp only [List.nil_append, List.cons_append, List.forall_mem_cons]
  refine ⟨?_, ?_, ?_, ?_, ?_, ?_, ?_, ?_, ?_, ?_, by simp⟩
  · rintro _ _ _ ⟨⟩
    decide
  · rintro _ _ _ ⟨⟩
  · rintro _ _ _ ⟨⟩
  · rintro _ _ _ ⟨⟩
  · rintro _ _ _ ⟨⟩
    decide
  all_goals rintro _ _ _ ⟨⟩

/-! ### How many come off -/

/-- The step is an enqueue after which its producer owes a wake. -/
def callsWake (x : Taken Sys Act) : Bool :=
  match x.act with
  | .enqueue _ m _ => (x.pre.queue.target m).isSome && x.pre.queue.mInboundQueue.isEmpty
  | _ => false

def isInterrupt (x : Taken Sys Act) : Bool :=
  match x.act with
  | .interrupt => true
  | _ => false

/-- The producers that owe a wake. -/
def OwedBy (s : Sys) (owing : List ℕ) : Prop := owing.Nodup ∧ ∀ p, s.owes p = true ↔ p ∈ owing

/-- What was called for and has not led to a section of `next`: a looper that comes to one, the bytes
    in the pipe, the wakes that are owed. -/
def load (s : Sys) (owing : List ℕ) : ℕ :=
  (if s.looper = .inNext then 1 else 0) + s.queue.mPoll.count + owing.length

variable {owing : List ℕ}

theorem load_enqueue (h : s.OwedBy owing) (hstep : Step s (.enqueue p m when) t) :
    ∃ owing', t.OwedBy owing' ∧
      t.load owing' = s.load owing + (callsWake ⟨s, .enqueue p m when, t⟩).toNat := by
  obtain ⟨hnodup, howes⟩ := h
  obtain ⟨hp, -, ⟨ht, rfl⟩ | ⟨target, q, ht, -, rfl⟩⟩ := step_enqueue hstep
  · exact ⟨owing, ⟨hnodup, howes⟩, by simp [load, callsWake, ht]⟩
  · cases he : s.queue.mInboundQueue.isEmpty with
    | false =>
      rw [← hp, Function.update_eq_self]
      exact ⟨owing, ⟨hnodup, howes⟩, by simp [load, callsWake, he]⟩
    | true =>
      have hout : p ∉ owing := by simp [← howes, hp]
      refine ⟨p :: owing, ⟨List.nodup_cons.mpr ⟨hout, hnodup⟩, ?_⟩, ?_⟩
      · intro r
        rcases eq_or_ne r p with rfl | hr
        · simp
        · simp [hr, howes]
      · simp [load, callsWake, ht, he]
        omega

theorem load_wake (h : s.OwedBy owing) (hstep : Step s (.wake p) t) :
    ∃ owing', t.OwedBy owing' ∧ t.load owing' ≤ s.load owing := by
  obtain ⟨hnodup, howes⟩ := h
  obtain ⟨hp, rfl⟩ := step_wake hstep
  have hin : p ∈ owing := (howes p).mp hp
  refine ⟨owing.erase p, ⟨hnodup.erase p, ?_⟩, ?_⟩
  · intro r
    rw [hnodup.mem_erase_iff]
    rcases eq_or_ne r p with rfl | hr
    · simp
    · simp [hr, howes]
  · have hcount := WakePipe.count_wake_le s.queue.mPoll
    have hpos := List.length_pos_of_mem hin
    simp only [load, MessageQueue.wake, List.length_erase_of_mem hin]
    omega

/-- A step puts on the load what it calls for, and what `next` takes off is taken from it. -/
theorem load_step (h : s.OwedBy owing) (hstep : Step s a t) : ∃ owing', t.OwedBy owing' ∧
    (takes ⟨s, a, t⟩).toList.length + t.load owing' ≤
      s.load owing + (callsWake ⟨s, a, t⟩).toNat + (isInterrupt ⟨s, a, t⟩).toNat := by
  cases a with
  | enqueue p m when =>
    obtain ⟨owing', howes, hload⟩ := load_enqueue h hstep
    exact ⟨owing', howes, by simp [takes, isInterrupt, hload]⟩
  | wake p =>
    obtain ⟨owing', howes, hload⟩ := load_wake h hstep
    exact ⟨owing', howes, by simpa [takes, isInterrupt, callsWake] using hload⟩
  | createMessage m g now =>
    obtain ⟨-, -, rfl⟩ := step_createMessage hstep
    exact ⟨owing, h, by simp [takes, isInterrupt, callsWake, load, MessageQueue.newMessage]⟩
  | poll =>
    obtain ⟨⟨timeout, hpc⟩, hcount, mPoll, hzero, rfl⟩ := step_poll hstep
    refine ⟨owing, h, ?_⟩
    simp [takes, isInterrupt, callsWake, load, hpc, hzero]
    omega
  | interrupt =>
    obtain ⟨⟨timeout, hpc⟩, rfl⟩ := step_interrupt hstep
    refine ⟨owing, h, ?_⟩
    simp [takes, isInterrupt, callsWake, load, hpc]
    omega
  | next now =>
    obtain ⟨hpc, r, queue, hrun, rfl⟩ := step_next hstep
    have hpipe := (MessageQueue.nextLocked_head hrun).1
    have hone : s.queue.mInboundQueue.head.toList.length ≤ 1 := by
      cases s.queue.mInboundQueue.head <;> simp
    refine ⟨owing, by cases r <;> exact h, ?_⟩
    cases r <;> simp [takes, isInterrupt, callsWake, load, resume, hpc, hpipe] <;> omega
  | dispatch now =>
    obtain ⟨b, y, target, hpc, -, -, rfl⟩ := step_dispatch hstep
    exact ⟨owing, h, by simp [takes, isInterrupt, callsWake, load, hpc]⟩
  | recycle =>
    obtain ⟨b, hpc, -, rfl⟩ := step_recycle hstep
    exact ⟨owing, h, by simp [takes, isInterrupt, callsWake, load, hpc]⟩

theorem countP_concat (f : Taken Sys Act → Bool) (tr : List (Taken Sys Act)) (x : Taken Sys Act) :
    (tr ++ [x]).countP f = tr.countP f + (f x).toNat := by
  rw [List.countP_append, List.countP_singleton]
  cases f x <;> rfl

/-- In every run, the messages returned and dropped are no more than the enqueues that found the queue
    empty, the EINTRs and the bytes that were in the pipe at the start. -/
theorem taken_le_wakes (hrun : Runs mem mPoll tr s) :
    s.returnedMsgs.length + (droppedMsgs tr).length ≤
      tr.countP callsWake + tr.countP isInterrupt + mPoll.count := by
  have hload : ∃ owing, s.OwedBy owing ∧ (takenMsgs tr).length + s.load owing ≤
      tr.countP callsWake + tr.countP isInterrupt + mPoll.count := by
    refine hrun.invariant_steps (I := fun tr s => ∃ owing, s.OwedBy owing ∧
      (takenMsgs tr).length + s.load owing ≤
        tr.countP callsWake + tr.countP isInterrupt + mPoll.count) ?_ ?_
    · exact ⟨[], ⟨List.nodup_nil, by simp [start]⟩,
        by simp [takenMsgs, load, start, MessageQueue.init]⟩
    · rintro tr' s a t - hstep ⟨owing, howes, hle⟩
      obtain ⟨owing', howes', hle'⟩ := load_step howes hstep
      refine ⟨owing', howes', ?_⟩
      rw [takenMsgs_concat, List.length_append, countP_concat, countP_concat]
      omega
  obtain ⟨owing, -, hle⟩ := hload
  have hlen := (takenMsgs_perm tr).length_eq
  rw [List.length_append, ← returnedMsgs_run hrun] at hlen
  omega

/-- Two messages are sent before the looper comes to `next`: of the two, one comes off. -/
theorem taken_le_wakes_run : ∃ tr s, Runs twoMessages pipe tr s ∧ s.acceptedMsgs = [0, 1] ∧
    tr.countP callsWake = 1 ∧ s.returnedMsgs.length + (droppedMsgs tr).length ≤ 1 := by
  have h₀ : Runs twoMessages pipe [] _ := Run.nil
  have h₁ := h₀.snoc (a := Act.enqueue 0 0 5) ⟨rfl, 1, rfl⟩
  have h₂ := h₁.snoc (a := Act.enqueue 1 1 0) ⟨rfl, 1, rfl⟩
  have h₃ := h₂.snoc (a := Act.wake 0) ⟨rfl, 0, rfl⟩
  have h₄ := h₃.snoc (a := Act.poll) ⟨⟨⟨_, rfl⟩, by decide⟩, 1, rfl⟩
  have h₅ := h₄.snoc (a := Act.next 10) ⟨rfl, 0, rfl⟩
  exact ⟨_, _, h₅, rfl, rfl, taken_le_wakes h₅⟩

/-! ### One message at a time -/

/-- If the step passes a message to `enqueueMessage`, it finds the queue empty. -/
def FindsEmpty (x : Taken Sys Act) : Prop :=
  ∀ p m when, x.act = .enqueue p m when → x.pre.queue.mInboundQueue.isEmpty = true

/-- At most one message is linked, and what was accepted came off in that order. -/
theorem in_order (hrun : Runs mem mPoll tr s) (hfresh : ∀ x ∈ tr, x.pre.Fresh x.act)
    (hempty : ∀ x ∈ tr, FindsEmpty x) : ∃ xs, s.Safe xs ∧ s.Waking ∧ xs.length ≤ 1 ∧
      s.acceptedMsgs = takenMsgs tr ++ xs := by
  refine hrun.invariant_steps (I := fun tr s => ∃ xs, s.Safe xs ∧ s.Waking ∧ xs.length ≤ 1 ∧
    s.acceptedMsgs = takenMsgs tr ++ xs) ⟨[], safe_start, ?_, Nat.zero_le 1, rfl⟩ ?_
  · rintro - ⟨⟩
  rintro tr' s a t hx hstep ⟨xs, h, hwaking, hlen, hacc⟩
  have hwaking' : t.Waking := by
    refine hwaking.step hstep ?_
    rintro now b rfl hhead
    rw [h.fwd.head] at hhead
    match xs, hlen with
    | [m], _ =>
      obtain rfl := Option.some.inj hhead
      obtain ⟨-, next, hnext, rfl⟩ := h.fwd.next
      obtain ⟨n, hn, hnone⟩ := Option.map_eq_some_iff.mp hnext
      rw [MessageQueue.mem, hn, Option.bind_some, hnone]
  obtain ⟨ys, hsafe, ⟨hno, rfl⟩ | ⟨m, hm, htake, hys⟩⟩ := h.list_step hstep (hfresh _ hx)
  · refine ⟨ys, hsafe, hwaking', ?_, ?_⟩
    · rw [List.length_append] at hlen
      omega
    · rw [acceptedMsgs_step hstep, hno, hacc, takenMsgs_concat]
      simp
  · have hnil : xs = [] := by
      cases a with
      | enqueue p m when => exact h.fwd.isEmpty_iff.mp (hempty _ hx p m when rfl)
      | _ => cases hm
    subst hnil
    obtain rfl := List.perm_singleton.mp hys
    refine ⟨[m], hsafe, hwaking', le_refl 1, ?_⟩
    rw [acceptedMsgs_step hstep, hm, hacc, takenMsgs_concat, htake]
    simp

theorem returns_sublist (tr : List (Taken Sys Act)) :
    (tr.filterMap returns).Sublist (takenMsgs tr) := by
  induction tr with
  | nil => exact List.Sublist.refl _
  | cons x tr ih =>
    unfold takenMsgs at ih ⊢
    rcases takes_cases x with ⟨htake, hret, -⟩ | ⟨m, htake, ⟨hret, -⟩ | ⟨hret, -⟩⟩ <;>
      simp only [List.filterMap_cons, htake, hret]
    · exact ih
    · exact ih.cons_cons m
    · exact ih.cons m

/-- If every message is enqueued once at most and into an empty queue, the messages are returned in the
    order in which they were accepted; and when the looper waits in `pollOnce` with no wake in flight,
    none is linked, and all are recycled unless some were dropped. -/
theorem sent_one_at_a_time (hrun : Runs mem mPoll tr s) (hfresh : ∀ x ∈ tr, x.pre.Fresh x.act)
    (hempty : ∀ x ∈ tr, FindsEmpty x) : s.returnedMsgs.Sublist s.acceptedMsgs ∧
      ∀ timeout, s.looper = .polling timeout → ¬s.WakeInFlight →
        s.queue.mInboundQueue.isEmpty = true ∧
          (droppedMsgs tr = [] → s.recycledMsgs = s.acceptedMsgs) := by
  obtain ⟨xs, h, hwaking, -, hacc⟩ := in_order hrun hfresh hempty
  have hsub := returns_sublist tr
  rw [← returnedMsgs_run hrun] at hsub
  refine ⟨?_, ?_⟩
  · rw [hacc]
    exact hsub.trans (List.sublist_append_left _ _)
  · intro timeout hpc hno
    have hnil : s.queue.mInboundQueue.isEmpty = true := by
      by_contra he
      exact hno (hwaking (by rw [hpc]; nofun) (Bool.not_eq_true _ ▸ he))
    refine ⟨hnil, ?_⟩
    intro hdrop
    have hlen := (takenMsgs_perm tr).length_eq
    rw [hdrop, List.nil_append, ← returnedMsgs_run hrun] at hlen
    have hret : s.returnedMsgs = s.recycledMsgs := by
      rw [h.held, hpc]
      exact List.append_nil _
    rw [hacc, h.fwd.isEmpty_iff.mp hnil, List.append_nil, ← hret]
    exact hsub.eq_of_length hlen.symm

/-- One after the other. -/
theorem sent_one_at_a_time_run : ∃ tr s, Runs twoMessages pipe tr s ∧ s.acceptedMsgs = [0, 1] ∧
    s.returnedMsgs.Sublist s.acceptedMsgs := by
  have h₀ : Runs twoMessages pipe [] _ := Run.nil
  have h₁ := h₀.snoc (a := Act.enqueue 0 0 5) ⟨rfl, 1, rfl⟩
  have h₂ := h₁.snoc (a := Act.wake 0) ⟨rfl, 0, rfl⟩
  have h₃ := h₂.snoc (a := Act.poll) ⟨⟨⟨_, rfl⟩, by decide⟩, 1, rfl⟩
  have h₄ := h₃.snoc (a := Act.next 10) ⟨rfl, 0, rfl⟩
  have h₅ := h₄.snoc (a := Act.enqueue 0 1 5) ⟨rfl, 1, rfl⟩
  refine ⟨_, _, h₅, rfl, (sent_one_at_a_time h₅ ?_ ?_).1⟩
  · simp only [List.nil_append, List.cons_append, List.forall_mem_cons]
    refine ⟨?_, ?_, ?_, ?_, ?_, by simp⟩
    · rintro _ _ _ ⟨⟩
      decide
    · rintro _ _ _ ⟨⟩
    · rintro _ _ _ ⟨⟩
    · rintro _ _ _ ⟨⟩
    · rintro _ _ _ ⟨⟩
      decide
  · simp only [List.nil_append, List.cons_append, List.forall_mem_cons]
    refine ⟨?_, ?_, ?_, ?_, ?_, by simp⟩ <;> rintro _ _ _ ⟨⟩ <;> rfl

end Sys

end ThreadManager
