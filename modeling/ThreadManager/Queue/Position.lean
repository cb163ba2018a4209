import ThreadManager.Message.Message

/-! Where a timed insertion puts the node, and what else it writes.

    The position is a number: 0 for an insertion at the head, and otherwise the least index from 1 on
    at which a node stamped later stands. The node at index 0 has been compared before the search. -/

namespace ThreadManager
open Schemes

/-- The conditions of `enqueueAtTimeOut` for its first branch. -/
def GoesFirst (w : Addr → ℤ) (when : ℤ) (xs : List Addr) : Prop :=
  xs = [] ∨ when = 0 ∨ ∃ a, xs.head? = some a ∧ when < w a

/-- `k` is the index at which a timed insertion puts the node. -/
def Place (w : Addr → ℤ) (when : ℤ) (xs : List Addr) (k : ℕ) : Prop :=
  GoesFirst w when xs ∧ k = 0 ∨
    ¬GoesFirst w when xs ∧ 1 ≤ k ∧ (∃ b, xs[k]? = some b ∧ when < w b) ∧
      ∀ i b, 1 ≤ i → i < k → xs[i]? = some b → ¬when < w b

/-- Nothing of the objects is written, and of the links only those of `e`, the `next` of `pred` and the
    `prev` of `succ`. -/
structure OnlyLinks {α : Type} (e : Addr) (pred succ : Ptr) (h h' : Heap (Link α)) : Prop where
  obj : ∀ a, (h' a).map Link.obj = (h a).map Link.obj
  next : ∀ a, a ≠ e → some a ≠ pred → (h' a).map Link.next = (h a).map Link.next
  prev : ∀ a, a ≠ e → some a ≠ succ → (h' a).map Link.prev = (h a).map Link.prev

section Place

variable {w : Addr → ℤ} {when : ℤ} {xs l r : List Addr} {p y : Addr}

theorem goesFirst_iff : GoesFirst w when xs ↔ before w when xs = [] := by
  cases xs with
  | nil => simp [GoesFirst, before]
  | cons x xs =>
    by_cases h0 : when = 0
    · simp [GoesFirst, before, h0]
    · simp [GoesFirst, before, h0, List.takeWhile_cons]

/-- There is one such index. -/
theorem Place.unique {j k : ℕ} (hj : Place w when xs j) (hk : Place w when xs k) : j = k := by
  rcases hj with ⟨hfirst, rfl⟩ | ⟨hno, hj, ⟨b, hb, hlt⟩, hleast⟩
  · rcases hk with ⟨-, rfl⟩ | ⟨hno, -⟩
    · rfl
    · exact absurd hfirst hno
  · rcases hk with ⟨hfirst, -⟩ | ⟨-, hk, ⟨c, hc, hlt'⟩, hleast'⟩
    · exact absurd hfirst hno
    · rcases lt_trichotomy j k with hjk | rfl | hkj
      · exact absurd hlt (hleast' j b hj hjk hb)
      · rfl
      · exact absurd hlt' (hleast k c hk hkj hc)

/-- In front of the first node stamped later, with at least one node ahead. -/
theorem place_middle (h0 : when ≠ 0) (hle : ∀ a ∈ l ++ [p], w a ≤ when) (hlt : when < w y) :
    Place w when (l ++ p :: y :: r) (l.length + 1) := by
  have hplace := place_eq h0 hle hlt (m := r)
  have hfirst : ¬GoesFirst w when ((l ++ [p]) ++ y :: r) := by
    rw [goesFirst_iff, hplace.1]
    simp
  rw [List.append_cons]
  refine Or.inr ⟨hfirst, Nat.succ_pos _, ⟨y, ?_, hlt⟩, ?_⟩
  · rw [List.getElem?_append_right (by simp)]
    simp
  · intro i b _ hi hb
    rw [List.getElem?_append_left (by simpa using hi)] at hb
    exact not_lt.mpr (hle b (List.mem_of_getElem? hb))

end Place

namespace Queue

variable {α : Type} {q q' : Queue α} {xs : List Addr} {e b p y : Addr} {when : ℤ}

/-- At the head only the old head, if there is one, has a link written: its `prev`. -/
theorem enqueueAtHead_onlyLinks (h : q.enqueueAtHead (some e) = .done q') :
    OnlyLinks e none q.head q.mem q'.mem := by
  obtain ⟨-, -, ⟨-, hmem⟩ | ⟨b, hb, -, hmem⟩⟩ := enqueueAtHead_done h
  · rw [hmem]
    refine ⟨?_, ?_, ?_⟩
    · intro a
      simp
    · intro a hne _
      simp [Heap.upd_of_ne hne]
    · intro a hne _
      simp [Heap.upd_of_ne hne]
  · rw [hmem, hb]
    refine ⟨?_, ?_, ?_⟩
    · intro a
      simp
    · intro a hne _
      simp [Heap.upd_of_ne hne]
    · intro a hne hsucc
      have hnb : a ≠ b := fun heq => hsucc (congrArg some heq)
      simp [Heap.upd_of_ne hne, Heap.upd_of_ne hnb]

/-- Between `p` and `y` the `prev` of `y` is not even written. -/
theorem middle_onlyLinks {h : Heap (Link α)} (succ : Ptr) :
    OnlyLinks e (some p) succ h (((h.upd e (Link.withNext (some y))).upd p
      (Link.withNext (some e))).upd e (Link.withPrev (some p))) := by
  refine ⟨?_, ?_, ?_⟩
  · intro a
    simp
  · intro a hne hpred
    have hnp : a ≠ p := fun heq => hpred (congrArg some heq)
    simp [Heap.upd_of_ne hne, Heap.upd_of_ne hnp]
  · intro a hne _
    simp [Heap.upd_of_ne hne]

variable [Timed α]

/-- A call that completes was given an object. -/
theorem live_of_enqueueAtTimeOut {n : ℕ} (h : q.enqueueAtTimeOut n (some e) when = .done q') :
    (q.mem e).isSome := by
  rcases enqueueAtTimeOut_done h with ⟨-, h⟩ | ⟨p, y, m, -, -, -, -, he, -⟩
  · exact (enqueueAtHead_done h).1
  · exact he

/-- On a list with any `prev` links and any stamps: a call that completes puts the node at its place,
    and writes no other field than the links around it. -/
theorem enqueueAtTimeOut_position (hq : q.Fwd xs) (hx : e ∉ xs)
    (h : Completes (fun n => q.enqueueAtTimeOut n (some e) when) q') :
    ∃ k, Place (stamp q.mem) when xs k ∧ q'.Fwd (xs.take k ++ e :: xs.drop k) ∧
      (xs.take k ++ e :: xs.drop k).Nodup ∧
      OnlyLinks e (xs.take k).getLast? (xs.drop k).head? q.mem q'.mem := by
  obtain ⟨n, hn⟩ := id h
  have he := live_of_enqueueAtTimeOut hn
  obtain ⟨hfits, hfwd, -⟩ := enqueueAtTimeOut_completes hq hx he h
  by_cases hb : before (stamp q.mem) when xs = []
  · have hsplit := before_append_behind (stamp q.mem) when xs
    rw [hb, List.nil_append] at hsplit
    rw [hb, hsplit, List.nil_append] at hfwd
    refine ⟨0, Or.inl ⟨goesFirst_iff.mpr hb, rfl⟩, hfwd, hfwd.nodup, ?_⟩
    have honly := enqueueAtHead_onlyLinks ((enqueueAtTimeOut_head hq hb).symm.trans hn)
    rw [hq.head] at honly
    exact honly
  · obtain ⟨l, p, y, r, rfl, hbefore, hbehind, h0, hle, hlt⟩ := middle_of_fits hfits hb
    have htake : (l ++ p :: y :: r).take (l.length + 1) = l ++ [p] := by
      rw [List.append_cons, List.take_left' (by simp)]
    have hdrop : (l ++ p :: y :: r).drop (l.length + 1) = y :: r := by
      rw [List.append_cons, List.drop_left' (by simp)]
    rw [hbefore, hbehind] at hfwd
    refine ⟨l.length + 1, place_middle h0 hle hlt, ?_⟩
    rw [htake, hdrop]
    refine ⟨hfwd, hfwd.nodup, ?_⟩
    have hrun := enqueueAtTimeOut_between hq he h0 hle hlt (Nat.lt_succ_self _)
    obtain rfl := (enqueueAtTimeOut_stable q (some e) when).completes_unique h ⟨_, hrun⟩
    rw [List.getLast?_concat]
    exact middle_onlyLinks _

/-- Messages 0, 1 and 2 stamped 3, 1 and 9, linked in this order with no `prev` links, and message 3
    beside them. -/
def unsorted : Queue Message where
  mem a := [(3, some 1), (1, some 2), (9, none), (4, none)][a]?.map fun n =>
    (Message.createMessage (some 0) n.1).withNext n.2
  head := some 0
  tail := some 2

/-- At time 5 the new message goes in front of the last one. -/
theorem enqueueAtTimeOut_position_unsorted : ∃ q', unsorted.Fwd [0, 1, 2] ∧
    Completes (fun n => unsorted.enqueueAtTimeOut n (some 3) 5) q' ∧
    ∃ k, Place (stamp unsorted.mem) 5 [0, 1, 2] k ∧
      q'.Fwd ([0, 1, 2].take k ++ 3 :: [0, 1, 2].drop k) ∧
      ([0, 1, 2].take k ++ 3 :: [0, 1, 2].drop k).Nodup ∧
      OnlyLinks 3 ([0, 1, 2].take k).getLast? ([0, 1, 2].drop k).head? unsorted.mem q'.mem :=
  have hfwd : unsorted.Fwd [0, 1, 2] := ⟨⟨rfl, _, rfl, rfl, _, rfl, rfl, _, rfl, rfl⟩, rfl⟩
  have hrun : Completes (fun n => unsorted.enqueueAtTimeOut n (some 3) 5) _ := ⟨3, rfl⟩
  ⟨_, hfwd, hrun, enqueueAtTimeOut_position hfwd (by decide) hrun⟩

end Queue

end ThreadManager
