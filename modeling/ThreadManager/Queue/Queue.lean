import ThreadManager.Schemes.Segment

/-! `MessageQueue::Queue<T>`, the intrusive doubly linked list of MessageQueue.h, and `Link<T>` of
    Message.h.

    A node is an object with the two links of `Link<T>` and what `T` adds to them. The queue is its
    `head` and `tail` together with the memory the nodes live in. Every access goes through
    `Heap.deref` or `Heap.modify`, so a method faults where the source would follow NULL or a
    deleted node, and the statements stand in the order of the source. -/

namespace ThreadManager
open Schemes

/-- `Link<T>`, with the rest of the object. -/
structure Link (α : Type) where
  next : Ptr
  prev : Ptr
  obj : α
  deriving DecidableEq, Repr

namespace Link

variable {α : Type} {n : Link α} {v : Ptr}

def withNext (v : Ptr) (n : Link α) : Link α := { n with next := v }

def withPrev (v : Ptr) (n : Link α) : Link α := { n with prev := v }

@[simp] theorem next_withNext : (n.withNext v).next = v := rfl
@[simp] theorem prev_withNext : (n.withNext v).prev = n.prev := rfl
@[simp] theorem obj_withNext : (n.withNext v).obj = n.obj := rfl
@[simp] theorem next_withPrev : (n.withPrev v).next = n.next := rfl
@[simp] theorem prev_withPrev : (n.withPrev v).prev = v := rfl
@[simp] theorem obj_withPrev : (n.withPrev v).obj = n.obj := rfl

end Link

/-- `T::getWhen()`, the only method of `T` that the queue calls. -/
class Timed (α : Type) where
  getWhen : α → ℤ

export Timed (getWhen)

/-- `Queue<T>` and the memory its nodes live in. -/
structure Queue (α : Type) where
  mem : Heap (Link α)
  head : Ptr
  tail : Ptr

namespace Queue

variable {α : Type}

/-- The constructor: nothing is linked. -/
def empty (mem : Heap (Link α)) : Queue α := ⟨mem, none, none⟩

/-- `p->next = v`. -/
def setNext (q : Queue α) (p v : Ptr) : Outcome Fault (Queue α) := do
  let mem ← q.mem.modify p (Link.withNext v)
  return { q with mem }

/-- `p->prev = v`. -/
def setPrev (q : Queue α) (p v : Ptr) : Outcome Fault (Queue α) := do
  let mem ← q.mem.modify p (Link.withPrev v)
  return { q with mem }

def isEmpty (q : Queue α) : Bool := q.head.isNone

def enqueueAtTail (q : Queue α) (entry : Ptr) : Outcome Fault (Queue α) := do
  let q ← q.setPrev entry q.tail
  let q ← if q.tail.isSome then q.setNext q.tail entry else pure { q with head := entry }
  let q ← q.setNext entry none
  return { q with tail := entry }

def enqueueAtHead (q : Queue α) (entry : Ptr) : Outcome Fault (Queue α) := do
  let q ← q.setNext entry q.head
  let q ← if q.head.isSome then q.setPrev q.head entry else pure { q with tail := entry }
  let q ← q.setPrev entry none
  return { q with head := entry }

/-- `NULL == head || 0 == when || when < head->getWhen()`, evaluated left to right. -/
def timedAtHead [Timed α] (q : Queue α) (when : ℤ) : Outcome Fault Bool :=
  if q.head = none ∨ when = 0 then pure true
  else do
    let n ← q.mem.deref q.head
    return decide (when < getWhen n.obj)

/-- One pass of the `while(true)` of `enqueueAtTimeOut`, from the cursor `t`. Only the last branch
    breaks: behind the last node the source appends and goes on with `t == NULL`. -/
def searchPass [Timed α] (entry : Ptr) (when : ℤ) (s : Queue α × Ptr) :
    Outcome Fault ((Queue α × Ptr) ⊕ (Queue α × Ptr × Ptr)) := do
  let prev := s.2
  let n ← s.1.mem.deref prev
  let t := n.next
  if t = none then
    let q ← s.1.enqueueAtTail entry
    return .inl (q, t)
  else
    let n ← s.1.mem.deref t
    if when < getWhen n.obj then return .inr (s.1, prev, t) else return .inl (s.1, t)

/-- `enqueueAtTimeOut`, its search loop given `fuel` passes. -/
def enqueueAtTimeOut [Timed α] (fuel : ℕ) (q : Queue α) (entry : Ptr) (when : ℤ) :
    Outcome Fault (Queue α) := do
  if ← q.timedAtHead when then q.enqueueAtHead entry
  else
    let (q, prev, t) ← loop (searchPass entry when) fuel (q, q.head)
    let q ← q.setNext entry t
    let q ← q.setNext prev entry
    q.setPrev entry prev

/-- `dequeue`; the links of `entry` are read again after the first write, as in the source. -/
def dequeue (q : Queue α) (entry : Ptr) : Outcome Fault (Queue α) := do
  let e ← q.mem.deref entry
  let q ← (if e.prev.isSome then q.setNext e.prev e.next else pure { q with head := e.next })
  let e ← q.mem.deref entry
  if e.next.isSome then q.setPrev e.next e.prev else return { q with tail := e.prev }

def dequeueAtHead (q : Queue α) : Outcome Fault (Ptr × Queue α) := do
  let entry := q.head
  let e ← q.mem.deref entry
  let q := { q with head := e.next }
  let q ← if q.head.isSome then q.setPrev q.head none else pure { q with tail := none }
  return (entry, q)

/-- One pass of the `for` of `count`, with the `uint32_t` result so far. -/
def countPass (q : Queue α) (s : Ptr × ℕ) : Outcome Fault ((Ptr × ℕ) ⊕ ℕ) :=
  if s.1 = none then return .inr s.2
  else do
    let n ← q.mem.deref s.1
    return .inl (n.next, (s.2 + 1) % 2 ^ 32)

/-- `count`, its loop given `fuel` passes. -/
def count (fuel : ℕ) (q : Queue α) : Outcome Fault ℕ := loop q.countPass fuel (q.head, 0)

/-! ### Field writes -/

section FieldWrites

variable {q q' : Queue α} {a b : Addr} {v : Ptr}

theorem setNext_some (ha : (q.mem a).isSome) :
    q.setNext (some a) v = .done { q with mem := q.mem.upd a (Link.withNext v) } := by
  simp [setNext, Heap.modify_some ha]

theorem setPrev_some (ha : (q.mem a).isSome) :
    q.setPrev (some a) v = .done { q with mem := q.mem.upd a (Link.withPrev v) } := by
  simp [setPrev, Heap.modify_some ha]

@[simp] theorem setNext_none : q.setNext none v = .fault .nullDeref := rfl

@[simp] theorem setPrev_none : q.setPrev none v = .fault .nullDeref := rfl

end FieldWrites

/-! ### What a queue represents -/

section Represents

variable {q : Queue α} {xs : List Addr}

/-- The nodes linked from `head` along `next` are `xs`, and `tail` is the last of them. The `prev`
    links are left open. -/
structure Fwd (q : Queue α) (xs : List Addr) : Prop where
  next : Seg Link.next q.mem q.head xs none
  tail : q.tail = xs.getLast?

/-- Well-formed for `xs`: `next` runs through `xs` from `head`, `prev` runs through `xs` backwards
    from `tail`, and both end in NULL. -/
structure Repr (q : Queue α) (xs : List Addr) : Prop where
  next : Seg Link.next q.mem q.head xs none
  prev : Seg Link.prev q.mem q.tail xs.reverse none

/-- `a` is met when `next` is followed from `head`. -/
def Linked (q : Queue α) (a : Addr) : Prop := Reach Link.next q.mem q.head a

theorem Fwd.head (h : q.Fwd xs) : q.head = xs.head? := h.next.head_eq

theorem Fwd.nodup (h : q.Fwd xs) : xs.Nodup := h.next.nodup

theorem Fwd.live (h : q.Fwd xs) {a : Addr} (ha : a ∈ xs) : (q.mem a).isSome := h.next.live ha

theorem Fwd.linked_iff (h : q.Fwd xs) {a : Addr} : q.Linked a ↔ a ∈ xs := reach_iff_mem h.next

theorem Fwd.isEmpty_iff (h : q.Fwd xs) : q.isEmpty = true ↔ xs = [] := by
  rw [isEmpty, Option.isNone_iff_eq_none, h.next.eq_nil_iff]

theorem Fwd.unique {ys : List Addr} (h : q.Fwd xs) (h' : q.Fwd ys) : xs = ys := h.next.det h'.next

theorem Repr.fwd (h : q.Repr xs) : q.Fwd xs :=
  ⟨h.next, by rw [h.prev.head_eq, List.head?_reverse]⟩

theorem fwd_empty (mem : Heap (Link α)) : (empty mem).Fwd [] := ⟨rfl, rfl⟩

theorem repr_empty (mem : Heap (Link α)) : (empty mem).Repr [] := ⟨rfl, rfl⟩

end Represents

end Queue

end ThreadManager
