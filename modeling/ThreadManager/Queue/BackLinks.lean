import ThreadManager.Schemes.Transition
import ThreadManager.Message.Message

/-! Timed insertion and the back links.

    `enqueueAtTimeOut` writes the `prev` link of the node behind the new one when it goes to the
    head, and forgets it when it goes between two nodes. Nothing notices until the node behind is
    taken out with `dequeue`, which then writes the `next` link of the wrong node. So over runs of
    `enqueueAtTimeOut`, `dequeue` and `dequeueAtHead` the back links stay right exactly as long as
    every insertion is one at the head. -/

namespace ThreadManager
open Schemes

/-- The operations of the timed queue. -/
inductive TimedOp where
  | enqueueAtTimeOut (e : Addr) (when : ℤ)
  | dequeue (e : Addr)
  | dequeueAtHead
  deriving DecidableEq, Repr

namespace Queue

variable {α : Type} [Timed α]

/-- A completed operation: a node that is not linked goes in, a linked node comes out. -/
inductive TimedStep : Queue α → TimedOp → Queue α → Prop
  | enqueueAtTimeOut {q q'} (e : Addr) (when : ℤ) (hout : ¬q.Linked e) (hlive : (q.mem e).isSome)
      (hrun : Completes (fun n => q.enqueueAtTimeOut n (some e) when) q') :
      TimedStep q (.enqueueAtTimeOut e when) q'
  | dequeue {q q' e} (hin : q.Linked e) (hrun : q.dequeue (some e) = .done q') :
      TimedStep q (.dequeue e) q'
  | dequeueAtHead {q q' p} (hrun : q.dequeueAtHead = .done (p, q')) : TimedStep q .dequeueAtHead q'

variable {q q' : Queue α} {xs : List Addr} {e : Addr} {when : ℤ}

omit [Timed α] in
/-- An insertion between two nodes leaves the back link of the second one stale. -/
theorem not_repr_middle {l r ys : List Addr} {p y : Addr} (hq : q.Repr (l ++ p :: y :: r))
    (he : e ∉ l ++ p :: y :: r) (hrepr : q'.Repr ys) (hfwd : q'.Fwd (l ++ p :: e :: y :: r))
    (hmem : (q'.mem y).map Link.prev = (q.mem y).map Link.prev) : False := by
  obtain rfl := hrepr.fwd.unique hfwd
  have hnew : (q'.mem y).map Link.prev = some (some e) :=
    Repr.prev_eq (l := l ++ [p]) (m := r) (by simpa using hrepr)
  rw [hmem, hq.prev_eq] at hnew
  exact he (by simp [Option.some.inj (Option.some.inj hnew)])

/-- A completed timed insertion into a two-way list leaves one exactly if it went to the head. -/
theorem enqueueAtTimeOut_repr_iff (hq : q.Repr xs) (hx : e ∉ xs) (he : (q.mem e).isSome)
    (hrun : Completes (fun n => q.enqueueAtTimeOut n (some e) when) q') :
    (∃ ys, q'.Repr ys) ↔ q.AtHead when := by
  have hstable := enqueueAtTimeOut_stable q (some e) when
  rw [atHead_iff hq.fwd]
  constructor
  · rintro ⟨ys, hys⟩
    by_contra hb
    obtain ⟨hfits, hfwd, -⟩ := enqueueAtTimeOut_completes hq.fwd hx he hrun
    obtain ⟨l, p, y, r, rfl, hbefore, hbehind, h0, hle, hlt⟩ := middle_of_fits hfits hb
    rw [hbefore, hbehind] at hfwd
    have hye : y ≠ e := fun h => hx (by simp [h])
    obtain rfl := hstable.completes_unique hrun
      ⟨_, enqueueAtTimeOut_between hq.fwd he h0 hle hlt (Nat.lt_succ_self _)⟩
    refine not_repr_middle hq hx hys (by simpa using hfwd) ?_
    simp only [Heap.upd_of_ne hye, map_prev_upd_withNext]
  · intro hb
    obtain ⟨q₁, hdone, hrepr, -⟩ := enqueueAtHead_repr hq hx he
    obtain rfl := hstable.completes_unique hrun ⟨0, (enqueueAtTimeOut_head hq.fwd hb).trans hdone⟩
    exact ⟨_, hrepr⟩

/-- One step from a two-way list leads to a two-way list unless it inserts between two nodes. -/
theorem timedStep_repr_iff {op : TimedOp} (hq : ∃ xs, q.Repr xs) (hstep : TimedStep q op q') :
    (∃ xs, q'.Repr xs) ↔ ∀ e when, op = .enqueueAtTimeOut e when → q.AtHead when := by
  obtain ⟨xs, hq⟩ := hq
  cases hstep with
  | enqueueAtTimeOut e when hout hlive hrun =>
    have hx : e ∉ xs := fun hmem => hout (hq.fwd.linked_iff.mpr hmem)
    rw [enqueueAtTimeOut_repr_iff hq hx hlive hrun]
    exact ⟨by rintro h _ _ ⟨⟩; exact h, fun h => h e when rfl⟩
  | dequeue hin hrun =>
    obtain ⟨l, m, rfl⟩ := List.append_of_mem (hq.fwd.linked_iff.mp hin)
    obtain ⟨q₁, hdone, hrepr, -⟩ := dequeue_repr hq
    rw [hrun] at hdone
    cases hdone
    simpa using ⟨_, hrepr⟩
  | dequeueAtHead hrun =>
    cases xs with
    | nil => simp [dequeueAtHead_nil hq.fwd.head] at hrun
    | cons x xs =>
      obtain ⟨q₁, hdone, hrepr, -⟩ := dequeueAtHead_repr hq
      rw [hrun] at hdone
      cases hdone
      simpa using ⟨_, hrepr⟩

/-- From a two-way list `dequeue(e)` takes out exactly `e`. -/
theorem dequeue_exact (hq : ∃ xs, q.Repr xs) (hstep : TimedStep q (.dequeue e) q') :
    ∃ l m, q.Repr (l ++ e :: m) ∧ q'.Repr (l ++ m) := by
  obtain ⟨xs, hq⟩ := hq
  cases hstep with
  | dequeue hin hrun =>
    obtain ⟨l, m, rfl⟩ := List.append_of_mem (hq.fwd.linked_iff.mp hin)
    obtain ⟨q₁, hdone, hrepr, -⟩ := dequeue_repr hq
    rw [hrun] at hdone
    cases hdone
    exact ⟨l, m, hq, hrepr⟩

/-- In a run from the empty queue, every state is a two-way list and every `dequeue(e)` takes out
    exactly `e`, exactly when every timed insertion of the run goes to the head. -/
theorem back_links_iff_at_head {mem : Heap (Link α)} {tr : List (Taken (Queue α) TimedOp)}
    (hrun : Run TimedStep (empty mem) tr q) :
    (∀ x ∈ tr, (∃ xs, x.post.Repr xs) ∧
      ∀ e, x.act = .dequeue e → ∃ l m, x.pre.Repr (l ++ e :: m) ∧ x.post.Repr (l ++ m)) ↔
    ∀ x ∈ tr, ∀ e when, x.act = .enqueueAtTimeOut e when → x.pre.AtHead when := by
  refine hrun.forall_iff (I := fun q => ∃ xs, q.Repr xs) ⟨[], repr_empty mem⟩ ?_ ?_
  · intro x _ hstep hpre
    rw [← timedStep_repr_iff hpre hstep]
    constructor
    · intro h
      exact h.1
    · intro hpost
      refine ⟨hpost, ?_⟩
      intro e he
      exact dequeue_exact hpre (he ▸ hstep)
  · intro x _ hstep hpre hcond
    exact (timedStep_repr_iff hpre hstep).mpr hcond

/-- Three messages stamped 10, 1 and 3. -/
def threeMessages : Heap (Link Message) := fun a =>
  [10, 1, 3][a]?.map (Message.createMessage (some 0))

/-- Two insertions at the head, and the first node taken out from behind the second. -/
theorem back_links_kept_run : ∃ tr q, Run TimedStep (empty threeMessages) tr q ∧
    tr.map Taken.act = [.enqueueAtTimeOut 0 7, .enqueueAtTimeOut 1 2, .dequeue 0] ∧
    ∀ x ∈ tr, (∃ xs, x.post.Repr xs) ∧
      ∀ e, x.act = .dequeue e → ∃ l m, x.pre.Repr (l ++ e :: m) ∧ x.post.Repr (l ++ m) := by
  have h₁ := Run.nil.snoc (TimedStep.enqueueAtTimeOut (q := empty threeMessages) 0 7
    (by rintro ⟨⟩) rfl ⟨1, rfl⟩)
  have h₂ := h₁.snoc (TimedStep.enqueueAtTimeOut 1 2
    ((Fwd.linked_iff (show Fwd _ [0] from ⟨⟨rfl, _, rfl, rfl⟩, rfl⟩)).not.mpr (by decide))
    rfl ⟨1, rfl⟩)
  have h₃ := h₂.snoc (TimedStep.dequeue (e := 0)
    ((Fwd.linked_iff (show Fwd _ [1, 0] from ⟨⟨rfl, _, rfl, rfl, _, rfl, rfl⟩, rfl⟩)).mpr
      (by decide)) rfl)
  refine ⟨_, _, h₃, rfl, (back_links_iff_at_head h₃).mpr ?_⟩
  simp only [List.nil_append, List.cons_append, List.forall_mem_cons]
  refine ⟨?_, ?_, ?_, by simp⟩
  · rintro _ _ ⟨⟩
    exact Or.inl rfl
  · rintro _ _ ⟨⟩
    exact Or.inr (Or.inr ⟨0, rfl, by decide⟩)
  · rintro _ _ ⟨⟩

/-- The third insertion goes between the two nodes. Its neighbour behind keeps its old back link,
    so the `dequeue` of that neighbour takes the third node out too. -/
theorem back_links_stale : ∃ tr p q, Run TimedStep (empty threeMessages) tr p ∧
    tr.map Taken.act = [.enqueueAtTimeOut 0 7, .enqueueAtTimeOut 1 2, .enqueueAtTimeOut 2 5] ∧
    p.Fwd [1, 2, 0] ∧ (¬∃ xs, p.Repr xs) ∧ TimedStep p (.dequeue 0) q ∧ q.Fwd [1] := by
  have h₁ := Run.nil.snoc (TimedStep.enqueueAtTimeOut (q := empty threeMessages) 0 7
    (by rintro ⟨⟩) rfl ⟨1, rfl⟩)
  have h₂ := h₁.snoc (TimedStep.enqueueAtTimeOut 1 2
    ((Fwd.linked_iff (show Fwd _ [0] from ⟨⟨rfl, _, rfl, rfl⟩, rfl⟩)).not.mpr (by decide))
    rfl ⟨1, rfl⟩)
  have h₃ := h₂.snoc (TimedStep.enqueueAtTimeOut 2 5
    ((Fwd.linked_iff (show Fwd _ [1, 0] from ⟨⟨rfl, _, rfl, rfl, _, rfl, rfl⟩, rfl⟩)).not.mpr
      (by decide)) rfl ⟨3, rfl⟩)
  refine ⟨_, _, _, h₃, rfl, ⟨⟨rfl, _, rfl, rfl, _, rfl, rfl, _, rfl, rfl⟩, rfl⟩, ?_,
    .dequeue ((Fwd.linked_iff (show Fwd _ [1, 2, 0] from
      ⟨⟨rfl, _, rfl, rfl, _, rfl, rfl, _, rfl, rfl⟩, rfl⟩)).mpr (by decide)) rfl,
    ⟨⟨rfl, _, rfl, rfl⟩, rfl⟩⟩
  rintro ⟨xs, hrepr⟩
  obtain rfl : xs = [1, 2, 0] :=
    hrepr.fwd.unique ⟨⟨rfl, _, rfl, rfl, _, rfl, rfl, _, rfl, rfl⟩, rfl⟩
  exact absurd (hrepr.prev_eq (l := [1]) (m := [])) (by decide)

end Queue

end ThreadManager
