import ThreadManager.Looper.Safety
import ThreadManager.Queue.SelfLink

/-! A message that is enqueued twice.

    `next` marks the message it returns with `FLAG_IN_USE`, and nothing reads the flag;
    `enqueueMessage` does not look either whether the message is linked. A call with such a message
    goes through, and a call that goes through changes the queue. So duplicates are refused in a run
    only as long as there are none, and then the chain of `next` links stays finite. -/

namespace ThreadManager
open Schemes

namespace MessageQueue

/-- `FLAG_IN_USE` is set. -/
def InUse (s : MessageQueue) (m : Addr) : Prop :=
  ∃ o, (s.mem m).map Link.obj = some o ∧ o.flags &&& Message.flagInUse ≠ 0

variable {s s' : MessageQueue} {m a : Addr} {now : ℤ}

theorem InUse.congr (h : s.InUse m) (hobj : (s'.mem m).map Link.obj = (s.mem m).map Link.obj) :
    s'.InUse m := by
  obtain ⟨o, ho, hflag⟩ := h
  exact ⟨o, hobj.trans ho, hflag⟩

theorem InUse.live (h : s.InUse m) : (s.mem m).isSome := by
  obtain ⟨o, ho, -⟩ := h
  obtain ⟨n, hn, -⟩ := Option.map_eq_some_iff.mp ho
  simp [hn]

theorem flags_markInUse (o : Message) : o.markInUse.flags &&& Message.flagInUse ≠ 0 := by
  have hand : o.markInUse.flags &&& Message.flagInUse = Message.flagInUse := by
    ext i
    simp only [Message.markInUse, BitVec.getElem_and, BitVec.getElem_or, Bool.and_eq_right_iff_imp]
    intro hbit
    simp [hbit]
  rw [hand]
  decide

/-- The section of `next` marks the message it returns. -/
theorem inUse_of_nextLocked (h : s.nextLocked now = .done (.message a, s')) : s'.InUse a := by
  rcases nextLocked_cases h with ⟨-, hr, -⟩ | ⟨b, q, -, hdeq, hlive, hres⟩
  · cases hr
  · rcases hres with ⟨-, hr, -⟩ | ⟨-, hr, rfl⟩
    · cases hr
    · obtain rfl := NextResult.message.inj hr
      have hlive' : (q.mem a).isSome := by rwa [(dequeueAtHead_keeps hdeq a).live]
      obtain ⟨n, hn⟩ := Option.isSome_iff_exists.mp hlive'
      exact ⟨n.obj.markInUse, by simp [mem, handOut, hn], flags_markInUse n.obj⟩

end MessageQueue

namespace Sys

/-- The chain of `next` links ends and no node is met twice, so that `count` and the search of every
    timed insertion come to an end. -/
structure Walkable (q : Queue Message) : Prop where
  chain : ∃ xs, Seg Link.next q.mem q.head xs none ∧ xs.Nodup
  count : ∃ k, Completes (fun n => q.count n) k
  search : ∀ e when, (q.mem e).isSome →
    (∃ q', Completes (fun n => q.enqueueAtTimeOut n (some e) when) q') ∨
      ∃ f, Faults (fun n => q.enqueueAtTimeOut n (some e) when) f

/-- The message is linked in the queue or marked as in use. -/
def Duplicate (s : Sys) (m : Addr) : Prop := s.queue.mInboundQueue.Linked m ∨ s.queue.InUse m

/-- If the step is an `enqueueMessage`, the queue can be walked after it, and a message that was linked
    or in use has been refused. -/
def Refuses (x : Taken Sys Act) : Prop :=
  ∀ p m when, x.act = .enqueue p m when →
    Walkable x.post.queue.mInboundQueue ∧ (x.pre.Duplicate m → x.post.queue = x.pre.queue)

/-- If the step is an `enqueueMessage`, its message has no target or is neither linked nor in use. -/
def NoDuplicate (x : Taken Sys Act) : Prop :=
  ∀ p m when, x.act = .enqueue p m when → x.pre.queue.target m = none ∨ ¬x.pre.Duplicate m

/-- The linked messages are a list that ends, and the message the looper holds is in use and not one
    of them. -/
def Kept (s : Sys) : Prop :=
  ∃ xs, s.queue.mInboundQueue.Fwd xs ∧ ∀ m ∈ s.looper.held, m ∉ xs ∧ s.queue.InUse m

variable {s t : Sys} {a : Act} {m : Addr} {p : ℕ} {when now : ℤ} {g : Option Target}
  {xs : List Addr} {mem : Heap (Link Message)} {mPoll : WakePipe} {tr : List (Taken Sys Act)}

theorem walkable_of_fwd {q : Queue Message} (hq : q.Fwd xs) : Walkable q where
  chain := ⟨xs, hq.next, hq.nodup⟩
  count := ⟨_, _, Queue.count_fwd hq (Nat.lt_succ_self _)⟩
  search := by
    intro e when he
    by_cases hfits : Fits (stamp q.mem) when xs
    · left
      rw [Queue.enqueueAtTimeOut_completes_iff he fun a ha => hq.live (hq.linked_iff.mp ha)]
      rcases fits_iff.mp hfits with hnil | h0 | ⟨a, ha, hlt⟩
      · exact Or.inl (hq.next.eq_nil_iff.mpr hnil)
      · exact Or.inr (Or.inl h0)
      · exact Or.inr (Or.inr ⟨a, hq.linked_iff.mpr ha, hlt⟩)
    · exact Or.inr ⟨_, _, Queue.enqueueAtTimeOut_end hq he hfits (Nat.lt_succ_self _)⟩

/-! ### One step -/

theorem kept_start : (start mem mPoll).Kept :=
  ⟨[], Queue.fwd_empty mem, by simp [start, Pc.held]⟩

theorem Kept.createMessage (h : s.Kept) (hstep : Step s (.createMessage m g now) t) : t.Kept := by
  obtain ⟨hnew, -, rfl⟩ := step_createMessage hstep
  obtain ⟨xs, hq, hheld⟩ := h
  refine ⟨xs, MessageQueue.newMessage_fwd hnew hq, ?_⟩
  intro x hx
  obtain ⟨hout, huse⟩ := hheld x hx
  have hlive := huse.live
  refine ⟨hout, huse.congr (congrArg _ (Heap.alloc_of_ne ?_))⟩
  rintro rfl
  simp [hnew] at hlive

/-- Without a duplicate the message goes into the list. -/
theorem Kept.enqueue (h : s.Kept) (hstep : Step s (.enqueue p m when) t)
    (hno : s.queue.target m = none ∨ ¬s.Duplicate m) : t.Kept := by
  obtain ⟨xs, hq, hheld⟩ := h
  obtain ⟨-, hlive, ⟨-, rfl⟩ | ⟨target, q, ht, hdone, rfl⟩⟩ := step_enqueue hstep
  · exact ⟨xs, hq, hheld⟩
  · obtain ⟨hlinked, hfree⟩ := not_or.mp (hno.resolve_left (by simp [ht]))
    have hm : m ∉ xs := fun hm => hlinked (hq.linked_iff.mpr hm)
    obtain ⟨-, hfwd, hrel⟩ := Queue.enqueueAtTimeOut_completes hq hm hlive hdone
    refine ⟨_, hfwd, ?_⟩
    intro x hx
    obtain ⟨hout, huse⟩ := hheld x hx
    have hne : x ≠ m := by
      rintro rfl
      exact hfree huse
    refine ⟨?_, huse.congr (hrel.obj x)⟩
    rw [(insert_perm _ when xs m).mem_iff, List.mem_cons]
    exact not_or.mpr ⟨hne, hout⟩

theorem Kept.next (h : s.Kept) (hstep : Step s (.next now) t) : t.Kept := by
  obtain ⟨xs, hq, -⟩ := h
  obtain ⟨-, r, queue, hrun, rfl⟩ := step_next hstep
  cases xs with
  | nil =>
    rw [MessageQueue.nextLocked_nil hq.head] at hrun
    obtain ⟨rfl, rfl⟩ := Prod.mk.inj (Outcome.done.inj hrun)
    exact ⟨[], hq, by simp [resume, Pc.held]⟩
  | cons b ys =>
    have hb : b ∉ ys := (List.nodup_cons.mp hq.nodup).1
    obtain ⟨queue', hrun', hfwd, -⟩ := MessageQueue.nextLocked_fwd now hq
    obtain ⟨rfl, rfl⟩ := Prod.mk.inj (Outcome.done.inj (hrun'.symm.trans hrun))
    by_cases hdue : now < s.queue.stamp b
    · rw [if_pos hdue]
      exact ⟨ys, hfwd, by simp [resume, Pc.held]⟩
    · rw [if_neg hdue] at hrun ⊢
      refine ⟨ys, hfwd, ?_⟩
      intro x hx
      obtain rfl := List.mem_singleton.mp hx
      exact ⟨hb, MessageQueue.inUse_of_nextLocked hrun⟩

theorem Kept.recycle (h : s.Kept) (hstep : Step s .recycle t) : t.Kept := by
  obtain ⟨xs, hq, hheld⟩ := h
  obtain ⟨m, hpc, -, rfl⟩ := step_recycle hstep
  have hm : m ∉ xs := (hheld m (by simp [hpc, Pc.held])).1
  refine ⟨xs, ⟨hq.next.congr fun x hx => ?_, hq.tail⟩, by simp [Pc.held]⟩
  exact congrArg _ (Function.update_of_ne (ne_of_mem_of_not_mem hx hm) _ _)

/-- Every step but an `enqueueMessage` with a duplicate keeps to it. -/
theorem Kept.step (h : s.Kept) (hstep : Step s a t) (hno : NoDuplicate ⟨s, a, t⟩) : t.Kept := by
  cases a with
  | createMessage m g now => exact h.createMessage hstep
  | enqueue p m when => exact h.enqueue hstep (hno p m when rfl)
  | wake p =>
    obtain ⟨-, rfl⟩ := step_wake hstep
    exact h
  | poll =>
    obtain ⟨-, -, mPoll, -, rfl⟩ := step_poll hstep
    obtain ⟨xs, hq, -⟩ := h
    exact ⟨xs, hq, by simp [Pc.held]⟩
  | interrupt =>
    obtain ⟨-, rfl⟩ := step_interrupt hstep
    obtain ⟨xs, hq, -⟩ := h
    exact ⟨xs, hq, by simp [Pc.held]⟩
  | next now => exact h.next hstep
  | dispatch now =>
    obtain ⟨m, x, target, hpc, -, -, rfl⟩ := step_dispatch hstep
    obtain ⟨xs, hq, hheld⟩ := h
    exact ⟨xs, hq, fun y hy => hheld y (by simpa [hpc, Pc.held] using hy)⟩
  | recycle => exact h.recycle hstep

/-- On a list that ends, a call with a duplicate that goes through changes the queue. -/
theorem Kept.refuses_iff (h : s.Kept) (hstep : Step s (.enqueue p m when) t) :
    Walkable t.queue.mInboundQueue ∧ (s.Duplicate m → t.queue = s.queue) ↔
      s.queue.target m = none ∨ ¬s.Duplicate m := by
  constructor
  · rintro ⟨-, hsame⟩
    by_contra hno
    obtain ⟨ht, hdup⟩ := not_or.mp hno
    have hqueue := hsame (not_not.mp hdup)
    obtain ⟨xs, hq, -⟩ := h
    obtain ⟨-, -, ⟨hnone, -⟩ | ⟨target, q, -, ⟨n, hn⟩, rfl⟩⟩ := step_enqueue hstep
    · exact ht hnone
    · obtain rfl : q = s.queue.mInboundQueue := congrArg MessageQueue.mInboundQueue hqueue
      exact hq.not_stuck (Queue.stuck_of_same hn)
  · intro hno
    obtain ⟨ys, hys, -⟩ := h.enqueue hstep hno
    refine ⟨walkable_of_fwd hys, fun hdup => ?_⟩
    obtain ⟨-, -, ⟨-, rfl⟩ | ⟨target, q, ht, -, -⟩⟩ := step_enqueue hstep
    · rfl
    · exact absurd hdup (hno.resolve_left (by simp [ht]))

/-! ### Whole runs -/

/-- In a run every `enqueueMessage` leaves a queue that can be walked and refuses duplicates exactly
    if no message with a target is enqueued while it is linked or in use. -/
theorem duplicates_refused_iff (hrun : Runs mem mPoll tr s) :
    (∀ x ∈ tr, Refuses x) ↔ ∀ x ∈ tr, NoDuplicate x := by
  refine hrun.forall_iff (I := Kept) kept_start ?_ ?_
  · intro x _ hstep hpre
    constructor
    · intro h p m when hact
      exact (hpre.refuses_iff (hact ▸ hstep)).mp (h p m when hact)
    · intro h p m when hact
      exact (hpre.refuses_iff (hact ▸ hstep)).mpr (h p m when hact)
  · intro x _ hstep hpre hno
    exact hpre.step hstep hno

/-- A message fresh from `createMessage` is not in use. -/
theorem not_inUse_of_free {s : MessageQueue} {m : Addr} {o : Message}
    (ho : (s.mem m).map Link.obj = some o) (hflag : o.flags = Message.flagFree) : ¬s.InUse m := by
  rintro ⟨o', ho', huse⟩
  obtain rfl := Option.some.inj (ho.symm.trans ho')
  rw [hflag] at huse
  exact huse (by decide)

/-- Two messages, each enqueued once. -/
theorem duplicates_refused_run : ∃ tr s, Runs twoMessages pipe tr s ∧
    tr.map Taken.act = [.enqueue 0 0 5, .enqueue 1 1 0] ∧ ∀ x ∈ tr, Refuses x := by
  have h₀ : Runs twoMessages pipe [] _ := Run.nil
  have h₁ := h₀.snoc (a := Act.enqueue 0 0 5) ⟨rfl, 1, rfl⟩
  have h₂ := h₁.snoc (a := Act.enqueue 1 1 0) ⟨rfl, 1, rfl⟩
  refine ⟨_, _, h₂, rfl, (duplicates_refused_iff h₂).mpr ?_⟩
  simp only [List.nil_append, List.cons_append, List.forall_mem_cons]
  refine ⟨?_, ?_, by simp⟩
  · rintro _ _ _ ⟨⟩
    refine Or.inr (not_or.mpr ⟨?_, not_inUse_of_free rfl rfl⟩)
    exact (Queue.fwd_empty _).linked_iff.not.mpr (by simp)
  · rintro _ _ _ ⟨⟩
    refine Or.inr (not_or.mpr ⟨?_, not_inUse_of_free rfl rfl⟩)
    exact (Queue.Fwd.linked_iff (show Queue.Fwd _ [0] from ⟨⟨rfl, _, rfl, rfl⟩, rfl⟩)).not.mpr
      (by decide)

/-- One message, enqueued twice: it is linked to itself. -/
theorem duplicate_cycle : ∃ tr s, Runs twoMessages pipe tr s ∧
    tr.map Taken.act = [.enqueue 0 0 0, .enqueue 1 0 0] ∧
    s.queue.mInboundQueue.head = some 0 ∧ (s.queue.mem 0).map Link.next = some (some 0) ∧
    ¬Walkable s.queue.mInboundQueue ∧ ¬∀ x ∈ tr, Refuses x := by
  have h₀ : Runs twoMessages pipe [] _ := Run.nil
  have h₁ := h₀.snoc (a := Act.enqueue 0 0 0) ⟨rfl, 1, rfl⟩
  have h₂ := h₁.snoc (a := Act.enqueue 1 0 0) ⟨rfl, 1, rfl⟩
  have hcycle : ∀ q : Queue Message, q.head = some 0 → (q.mem 0).map Link.next = some (some 0) →
      ¬Walkable q := by
    rintro q hhead hself ⟨⟨xs, hs, -⟩, -, -⟩
    refine hs.not_self ((reach_iff_mem hs).mp ?_) hself
    rw [hhead]
    exact .here
  refine ⟨_, _, h₂, rfl, rfl, rfl, hcycle _ rfl rfl, ?_⟩
  intro hall
  exact hcycle _ rfl rfl (hall _ (List.mem_append_right _ List.mem_cons_self) 1 0 0 rfl).1

end Sys

end ThreadManager
