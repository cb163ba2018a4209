import ThreadManager.Schemes.Refinement
import ThreadManager.Queue.Links

/-! `Queue<T>` is a sequence of nodes.

    The specification is the sequence itself: `enqueueAtHead` prepends, `enqueueAtTail` appends,
    `dequeue` takes one node out, `dequeueAtHead` drops the first and returns it. Nodes may come
    back after they were removed, with whatever links they then carry. `queue_refines_sequence` says
    that the pointer code refines it over every sequence of operations. -/

namespace ThreadManager
open Schemes

/-- The untimed operations. -/
inductive QueueOp where
  | enqueueAtHead (e : Addr)
  | enqueueAtTail (e : Addr)
  | dequeue (e : Addr)
  | dequeueAtHead
  deriving DecidableEq, Repr

/-- The node an operation hands to the queue. -/
def QueueOp.entry : QueueOp → Option Addr
  | .enqueueAtHead e => some e
  | .enqueueAtTail e => some e
  | _ => none

/-- The operations on a sequence; undefined for a node already in it, a node not in it, or an
    empty sequence. The first component is what the method returns. -/
def seqExec : List Addr → QueueOp → Option (Ptr × List Addr)
  | xs, .enqueueAtHead e => if e ∈ xs then none else some (none, e :: xs)
  | xs, .enqueueAtTail e => if e ∈ xs then none else some (none, xs ++ [e])
  | xs, .dequeue e => if e ∈ xs then some (none, xs.erase e) else none
  | [], .dequeueAtHead => none
  | x :: xs, .dequeueAtHead => some (some x, xs)

namespace Queue

variable {α : Type}

/-- The operations on the queue. -/
def exec (q : Queue α) : QueueOp → Outcome Fault (Ptr × Queue α)
  | .enqueueAtHead e => do return (none, ← q.enqueueAtHead (some e))
  | .enqueueAtTail e => do return (none, ← q.enqueueAtTail (some e))
  | .dequeue e => do return (none, ← q.dequeue (some e))
  | .dequeueAtHead => q.dequeueAtHead

/-- One operation: the queue keeps representing the sequence, and only links of nodes in the
    sequence and of the node handed over are written. -/
theorem exec_repr {q : Queue α} {xs xs' : List Addr} {op : QueueOp} {out : Ptr} (hq : q.Repr xs)
    (hlive : ∀ e, op.entry = some e → (q.mem e).isSome) (hseq : seqExec xs op = some (out, xs')) :
    ∃ q', q.exec op = .done (out, q') ∧ q'.Repr xs' ∧
      Relinks (op.entry.toList ++ xs) q.mem q'.mem := by
  cases op with
  | enqueueAtHead e =>
    by_cases he : e ∈ xs
    · simp [seqExec, he] at hseq
    · simp only [seqExec, if_neg he, Option.some.injEq, Prod.mk.injEq] at hseq
      obtain ⟨rfl, rfl⟩ := hseq
      obtain ⟨q', hdone, hrepr, hrel⟩ := enqueueAtHead_repr hq he (hlive e rfl)
      exact ⟨q', by simp [exec, hdone], hrepr, hrel⟩
  | enqueueAtTail e =>
    by_cases he : e ∈ xs
    · simp [seqExec, he] at hseq
    · simp only [seqExec, if_neg he, Option.some.injEq, Prod.mk.injEq] at hseq
      obtain ⟨rfl, rfl⟩ := hseq
      obtain ⟨q', hdone, hrepr, hrel⟩ := enqueueAtTail_repr hq he (hlive e rfl)
      exact ⟨q', by simp [exec, hdone], hrepr, hrel⟩
  | dequeue e =>
    by_cases he : e ∈ xs
    · simp only [seqExec, if_pos he, Option.some.injEq, Prod.mk.injEq] at hseq
      obtain ⟨rfl, rfl⟩ := hseq
      obtain ⟨l, m, rfl⟩ := List.append_of_mem he
      obtain ⟨q', hdone, hrepr, hrel⟩ := dequeue_repr hq
      have hnot : e ∉ l := fun hmem =>
        (List.nodup_append.mp hq.fwd.nodup).2.2 e hmem e List.mem_cons_self rfl
      have herase : (l ++ e :: m).erase e = l ++ m := by
        rw [List.erase_append_right _ hnot, List.erase_cons_head]
      refine ⟨q', by simp [exec, hdone], herase ▸ hrepr, hrel.mono ?_⟩
      intro a ha
      simp only [List.mem_append, List.mem_cons] at ha ⊢
      tauto
    · simp [seqExec, he] at hseq
  | dequeueAtHead =>
    cases xs with
    | nil => simp [seqExec] at hseq
    | cons x xs =>
      simp only [seqExec, Option.some.injEq, Prod.mk.injEq] at hseq
      obtain ⟨rfl, rfl⟩ := hseq
      obtain ⟨q', hdone, hrepr, hrel⟩ := dequeueAtHead_repr hq
      exact ⟨q', hdone, hrepr, hrel.mono fun a ha => by simp [ha]⟩

/-- The relation of the refinement: the sequence is represented, and the objects alive are those
    of `mem`. -/
def Represents (mem : Heap (Link α)) (q : Queue α) (xs : List Addr) : Prop :=
  q.Repr xs ∧ ∀ a, (q.mem a).isSome = (mem a).isSome

theorem exec_refines (mem : Heap (Link α)) :
    Refines (Represents mem) (fun op => ∀ e, op.entry = some e → (mem e).isSome) exec seqExec := by
  rintro q xs op out xs' ⟨hq, hmem⟩ hlive hseq
  obtain ⟨q', hdone, hrepr, hrel⟩ :=
    exec_repr hq (fun e he => (hmem e).trans (hlive e he)) hseq
  exact ⟨q', hdone, hrepr, fun a => (hrel.live a).trans (hmem a)⟩

/-- Every sequence of operations that is allowed on sequences runs on the queue, from the empty
    one, with the same outputs; the queue then represents the sequence, `isEmpty` and `count` tell
    its emptiness and length, and one more operation goes the same way without touching any node
    outside the sequence but the one it hands over. -/
theorem queue_refines_sequence (mem : Heap (Link α)) (ops : List QueueOp) (outs : List Ptr)
    (xs : List Addr) (hlive : ∀ op ∈ ops, ∀ e, op.entry = some e → (mem e).isSome)
    (hseq : specAll seqExec [] ops = some (outs, xs)) :
    ∃ q, execAll exec (empty mem) ops = .done (outs, q) ∧ q.Repr xs ∧ xs.Nodup ∧
      (q.isEmpty = true ↔ xs = []) ∧ Completes (fun n => q.count n) (xs.length % 2 ^ 32) ∧
      ∀ op out xs', (∀ e, op.entry = some e → (mem e).isSome) →
        seqExec xs op = some (out, xs') →
        ∃ q', q.exec op = .done (out, q') ∧ q'.Repr xs' ∧
          ∀ a, a ∉ xs → op.entry ≠ some a → q'.mem a = q.mem a := by
  obtain ⟨q, hrun, hq, hmem⟩ := refines_all (exec_refines mem) ops (empty mem) [] outs xs
    ⟨repr_empty mem, fun _ => rfl⟩ hlive hseq
  refine ⟨q, hrun, hq, hq.fwd.nodup, hq.fwd.isEmpty_iff,
    ⟨xs.length + 1, count_fwd hq.fwd (Nat.lt_succ_self _)⟩, ?_⟩
  intro op out xs' hop hstep
  obtain ⟨q', hdone, hrepr, hrel⟩ :=
    exec_repr hq (fun e he => (hmem e).trans (hop e he)) hstep
  refine ⟨q', hdone, hrepr, fun a hx he => hrel.out a ?_⟩
  simp only [List.mem_append, Option.mem_toList]
  rintro (h | h)
  · exact he h
  · exact hx h

/-- Two nodes, one of them removed from the middle of a run and put back. -/
theorem queue_refines_sequence_reuse :
    ∃ q : Queue Unit, execAll exec (empty fun _ => some ⟨some 7, some 8, ()⟩)
      [.enqueueAtTail 0, .enqueueAtTail 1, .dequeue 0, .enqueueAtTail 0, .dequeueAtHead]
        = .done ([none, none, none, none, some 1], q) ∧ q.Repr [0] := by
  obtain ⟨q, hrun, hq, -⟩ := queue_refines_sequence
    (fun _ => some (⟨some 7, some 8, ()⟩ : Link Unit))
    [.enqueueAtTail 0, .enqueueAtTail 1, .dequeue 0, .enqueueAtTail 0, .dequeueAtHead]
    [none, none, none, none, some 1] [0] (fun _ _ _ _ => rfl) (by decide)
  exact ⟨q, hrun, hq⟩

end Queue

end ThreadManager
