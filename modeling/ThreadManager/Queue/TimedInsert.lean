import Mathlib.Data.List.TakeWhile
import ThreadManager.Queue.Links

/-! `enqueueAtTimeOut` as an insertion into a sequence.

    The search compares `when` with the `getWhen()` of the linked nodes, so the new node goes in
    front of the first node stamped later than `when` (`before` and `behind` are the two parts of
    the list), and to the head for `when = 0`. If the list is not empty and no node is stamped later
    the source appends inside the loop, does not leave it, and follows NULL in the next pass. The
    list need not be sorted and its `prev` links play no part. -/

namespace ThreadManager
open Schemes

/-- The time stamped on the node at `a`. -/
def stamp {α : Type} [Timed α] (h : Heap (Link α)) (a : Addr) : ℤ :=
  ((h a).map fun n => getWhen n.obj).getD 0

/-- The nodes that stay in front of an insertion at `when`. -/
def before (w : Addr → ℤ) (when : ℤ) (xs : List Addr) : List Addr :=
  if when = 0 then [] else xs.takeWhile fun a => w a ≤ when

/-- The nodes that come behind an insertion at `when`. -/
def behind (w : Addr → ℤ) (when : ℤ) (xs : List Addr) : List Addr :=
  if when = 0 then xs else xs.dropWhile fun a => w a ≤ when

/-- The search finds a place: the list is empty, or some node comes behind. -/
def Fits (w : Addr → ℤ) (when : ℤ) (xs : List Addr) : Prop := xs = [] ∨ behind w when xs ≠ []

section Place

variable {w w' : Addr → ℤ} {when : ℤ} {xs l m : List Addr} {a b : Addr}

theorem before_append_behind (w : Addr → ℤ) (when : ℤ) (xs : List Addr) :
    before w when xs ++ behind w when xs = xs := by
  by_cases h0 : when = 0
  · simp [before, behind, h0]
  · simp only [before, behind, if_neg h0]
    exact List.takeWhile_append_dropWhile

theorem insert_perm (w : Addr → ℤ) (when : ℤ) (xs : List Addr) (e : Addr) :
    (before w when xs ++ e :: behind w when xs).Perm (e :: xs) :=
  List.perm_middle.trans (by rw [before_append_behind])

theorem stamp_before (ha : a ∈ before w when xs) : w a ≤ when := by
  by_cases h0 : when = 0
  · simp [before, h0] at ha
  · simp only [before, if_neg h0] at ha
    simpa using List.mem_takeWhile_imp ha

theorem fits_iff : Fits w when xs ↔ xs = [] ∨ when = 0 ∨ ∃ a ∈ xs, when < w a := by
  unfold Fits behind
  by_cases h0 : when = 0
  · simp only [h0, if_true, true_or, or_true, iff_true]
    exact em _
  · simp [h0, List.dropWhile_eq_nil_iff]

/-- A split at the first node stamped later is the split of the search. -/
theorem place_eq (h0 : when ≠ 0) (hl : ∀ x ∈ l, w x ≤ when) (hb : when < w b) :
    before w when (l ++ b :: m) = l ∧ behind w when (l ++ b :: m) = b :: m := by
  have hl' : ∀ x ∈ l, decide (w x ≤ when) = true := fun x hx => by simpa using hl x hx
  have hb' : decide (w b ≤ when) = false := by simpa using hb
  simp only [before, behind, if_neg h0]
  rw [List.takeWhile_append_of_pos hl', List.dropWhile_append_of_pos hl',
    List.takeWhile_cons_of_neg (by simp [hb']), List.dropWhile_cons_of_neg (by simp [hb']),
    List.append_nil]
  exact ⟨rfl, rfl⟩

theorem mem_takeWhile_iff {p : Addr → Bool} (hnd : (l ++ b :: m).Nodup) :
    b ∈ (l ++ b :: m).takeWhile p ↔ ∀ x ∈ l ++ [b], p x = true := by
  induction l with
  | nil =>
    rcases hb : p b with _ | _ <;> simp [hb]
  | cons x l ih =>
    rw [List.cons_append, List.nodup_cons] at hnd
    have hne : b ≠ x := by
      rintro rfl
      exact hnd.1 (by simp)
    rcases hx : p x with _ | _
    · simp [hx]
    · simp only [List.cons_append, List.takeWhile_cons, hx, if_true, List.mem_cons, hne, false_or,
        ih hnd.2, forall_eq_or_imp, true_and]

/-- A node stays in front of an insertion exactly when neither it nor a node in front of it is
    stamped later. -/
theorem mem_before_iff (hnd : (l ++ b :: m).Nodup) :
    b ∈ before w when (l ++ b :: m) ↔ when ≠ 0 ∧ ∀ x ∈ l ++ [b], w x ≤ when := by
  rcases eq_or_ne when 0 with rfl | h0
  · simp [before]
  · rw [before, if_neg h0, mem_takeWhile_iff hnd, and_iff_right h0]
    simp only [decide_eq_true_eq]

theorem place_congr (hw : ∀ x ∈ xs, w x = w' x) :
    before w when xs = before w' when xs ∧ behind w when xs = behind w' when xs := by
  by_cases h0 : when = 0
  · simp [before, behind, h0]
  · simp only [before, behind, if_neg h0]
    induction xs with
    | nil => exact ⟨rfl, rfl⟩
    | cons x xs ih =>
      have ih' := ih fun y hy => hw y (List.mem_cons_of_mem _ hy)
      simp only [List.takeWhile_cons, List.dropWhile_cons, hw x List.mem_cons_self, ih'.1, ih'.2,
        and_self]

end Place

variable {α : Type} [Timed α] {h h' : Heap (Link α)} {ks : List Addr}

theorem stamp_some {n : Link α} {a : Addr} (hn : h a = some n) : stamp h a = getWhen n.obj := by
  simp [stamp, hn]

namespace Queue

variable {q : Queue α} {xs : List Addr} {e p y : Addr} {when : ℤ}

theorem timedAtHead_nil (hh : q.head = none) : q.timedAtHead when = .done true := by
  simp [timedAtHead, hh]

theorem timedAtHead_cons (hh : q.head = some p) (hp : (q.mem p).isSome) :
    q.timedAtHead when = .done (decide (when = 0 ∨ when < stamp q.mem p)) := by
  obtain ⟨n, hn⟩ := Option.isSome_iff_exists.mp hp
  by_cases h0 : when = 0
  · simp [timedAtHead, h0]
  · simp [timedAtHead, hh, h0, Heap.deref_some hn, stamp_some hn]

/-- The insertion goes to the head: the list is empty, or `when` is 0 or before its first node. -/
def AtHead (q : Queue α) (when : ℤ) : Prop :=
  q.head = none ∨ when = 0 ∨ ∃ a, q.head = some a ∧ when < stamp q.mem a

theorem timedAtHead_true (h : q.timedAtHead when = .done true) : q.AtHead when := by
  by_cases h0 : q.head = none ∨ when = 0
  · exact h0.imp_right Or.inl
  · rw [timedAtHead, if_neg h0] at h
    obtain ⟨n, hn, h⟩ := Outcome.bind_eq_done.mp h
    obtain ⟨a, ha, hna⟩ := Heap.deref_eq_done.mp hn
    refine Or.inr (Or.inr ⟨a, ha, ?_⟩)
    rw [stamp_some hna]
    simpa using h

theorem timedAtHead_false (h : q.timedAtHead when = .done false) : ¬q.AtHead when := by
  intro hat
  by_cases h0 : q.head = none ∨ when = 0
  · rw [timedAtHead, if_pos h0] at h
    cases h
  · rw [timedAtHead, if_neg h0] at h
    obtain ⟨n, hn, h⟩ := Outcome.bind_eq_done.mp h
    obtain ⟨a, ha, hna⟩ := Heap.deref_eq_done.mp hn
    rcases hat with hnone | hzero | ⟨b, hb, hlt⟩
    · exact h0 (Or.inl hnone)
    · exact h0 (Or.inr hzero)
    · obtain rfl := Option.some.inj (ha.symm.trans hb)
      rw [stamp_some hna] at hlt
      exact of_decide_eq_false (Outcome.done.inj h) hlt

theorem atHead_iff (hq : q.Fwd xs) : q.AtHead when ↔ before (stamp q.mem) when xs = [] := by
  rw [AtHead, hq.head]
  cases xs with
  | nil => simp [before]
  | cons x xs =>
    by_cases h0 : when = 0
    · simp [before, h0]
    · simp [before, h0, List.takeWhile_cons]

/-- The search stops in front of the first node stamped later. -/
theorem search_stops {l : List Addr} (hs : Seg Link.next q.mem q.head (l ++ [p]) (some y))
    (hy : (q.mem y).isSome) (hle : ∀ a ∈ l ++ [p], stamp q.mem a ≤ when)
    (hlt : when < stamp q.mem y) {n : ℕ} (hn : l.length + 1 < n) :
    loop (searchPass (some e) when) n (q, q.head) = .done (q, some p, some y) := by
  -- from the cursor `p` is the last node before `y`
  refine loop_total (R := fun k (s : Queue α × Ptr) => s.1 = q ∧ ∃ m, k = m.length + 1 ∧
      Seg Link.next q.mem s.2 (m ++ [p]) (some y) ∧ ∀ a ∈ m ++ [p], stamp q.mem a ≤ when)
    (P := fun o => o = .done (q, some p, some y)) ?_ n (l.length + 1) (q, q.head)
    ⟨rfl, l, rfl, hs, hle⟩ hn
  rintro k ⟨q₁, t⟩ ⟨hq₁, m, rfl, hs, hle⟩
  obtain rfl : q₁ = q := hq₁
  obtain ⟨ny, hny⟩ := Option.isSome_iff_exists.mp hy
  cases m with
  | nil =>
    obtain ⟨rfl, r, hr, hnext⟩ := hs
    obtain ⟨np, hnp, rfl⟩ := Option.map_eq_some_iff.mp hr
    rw [seg_nil] at hnext
    rw [stamp_some hny] at hlt
    right; left
    exact ⟨_, by simp [searchPass, Heap.deref_some hnp, hnext, Heap.deref_some hny, hlt], rfl⟩
  | cons a m =>
    rw [List.cons_append, seg_cons] at hs
    obtain ⟨rfl, r, hr, hs⟩ := hs
    obtain ⟨na, hna, rfl⟩ := Option.map_eq_some_iff.mp hr
    obtain ⟨b, m', hm⟩ : ∃ b m', m ++ [p] = b :: m' :=
      List.exists_cons_of_ne_nil (List.append_ne_nil_of_right_ne_nil _ (List.cons_ne_nil _ _))
    have hnext : na.next = some b := by rw [hm] at hs; exact hs.1
    obtain ⟨nb, hnb⟩ := Option.isSome_iff_exists.mp (hs.live (a := b) (by rw [hm]; simp))
    have hb : getWhen nb.obj ≤ when := by
      rw [← stamp_some hnb]
      exact hle b (by simp [hm])
    left
    refine ⟨(q₁, some b), ?_, m.length + 1, by simp, rfl, m, rfl, hnext ▸ hs,
      fun x hx => hle x (by simp only [List.cons_append, List.mem_cons]; exact Or.inr hx)⟩
    simp [searchPass, Heap.deref_some hna, hnext, Heap.deref_some hnb, not_lt.mpr hb]

/-- With no node stamped later the search appends, goes on with NULL and faults. -/
theorem search_falls (hq : q.Fwd xs) (hne : xs ≠ []) (he : (q.mem e).isSome)
    (hle : ∀ a ∈ xs, stamp q.mem a ≤ when) {n : ℕ} (hn : xs.length < n) :
    loop (searchPass (some e) when) n (q, q.head) = .fault .nullDeref := by
  -- the cursor stands on a node, with `ys` from there to the end, or on NULL after the append
  refine loop_total (R := fun k (s : Queue α × Ptr) => (s.1 = q ∧ ∃ l ys, xs = l ++ ys ∧ ys ≠ [] ∧
      k = ys.length ∧ Seg Link.next q.mem s.2 ys none) ∨ s.2 = none)
    (P := fun o => o = .fault Fault.nullDeref) ?_ n xs.length (q, q.head)
    (Or.inl ⟨rfl, [], xs, rfl, hne, rfl, hq.next⟩) hn
  rintro k ⟨q₁, t⟩ (⟨hq₁, l, ys, hxs, hys, rfl, hs⟩ | ht)
  · obtain rfl : q₁ = q := hq₁
    left
    obtain ⟨a, ys, rfl⟩ := List.exists_cons_of_ne_nil hys
    obtain ⟨rfl, r, hr, hs⟩ := hs
    obtain ⟨na, hna, rfl⟩ := Option.map_eq_some_iff.mp hr
    cases ys with
    | nil =>
      have hnil : na.next = none := hs
      have htail : q₁.tail = some a := by rw [hq.tail, hxs, List.getLast?_concat]
      obtain ⟨q', hq'⟩ : ∃ q', q₁.enqueueAtTail (some e) = .done q' :=
        ⟨_, enqueueAtTail_concat htail he (Option.isSome_iff_exists.mpr ⟨na, hna⟩)⟩
      exact ⟨(q', none), by simp [searchPass, Heap.deref_some hna, hnil, hq'], 0, by simp,
        Or.inr rfl⟩
    | cons b ys =>
      have hnext : na.next = some b := hs.1
      obtain ⟨nb, hnb⟩ := Option.isSome_iff_exists.mp (hs.live (a := b) (by simp))
      have hb : getWhen nb.obj ≤ when := by
        rw [← stamp_some hnb]
        exact hle b (by simp [hxs])
      refine ⟨(q₁, some b), ?_, (b :: ys).length, by simp,
        Or.inl ⟨rfl, l ++ [a], b :: ys, by simp [hxs], by simp, rfl, hnext ▸ hs⟩⟩
      simp [searchPass, Heap.deref_some hna, hnext, Heap.deref_some hnb, not_lt.mpr hb]
  · obtain rfl : t = none := ht
    exact Or.inr (Or.inr ⟨.nullDeref, rfl, rfl⟩)

/-- A pass of the search from a node: behind it stands nothing, a node that is not stamped later and
    becomes the cursor, or one that is and ends the search. -/
theorem searchPass_done {c : Addr} {r : (Queue α × Ptr) ⊕ (Queue α × Ptr × Ptr)}
    (h : searchPass (some e) when (q, some c) = .done r) :
    (∃ q', r = .inl (q', none)) ∨ ∃ y, (q.mem c).map Link.next = some (some y) ∧
      (q.mem y).isSome ∧ (stamp q.mem y ≤ when ∧ r = .inl (q, some y) ∨
        when < stamp q.mem y ∧ r = .inr (q, some c, some y)) := by
  obtain ⟨m, hm, h⟩ := Outcome.bind_eq_done.mp h
  obtain ⟨a, ha, hma⟩ := Heap.deref_eq_done.mp hm
  obtain rfl := Option.some.inj ha
  by_cases hnext : m.next = none
  · simp only [hnext, if_true] at h
    obtain ⟨q₁, -, h⟩ := Outcome.bind_eq_done.mp h
    exact Or.inl ⟨q₁, (Outcome.done.inj h).symm⟩
  · simp only [if_neg hnext] at h
    obtain ⟨k, hk, h⟩ := Outcome.bind_eq_done.mp h
    obtain ⟨y, hy, hky⟩ := Heap.deref_eq_done.mp hk
    refine Or.inr ⟨y, by rw [hma, Option.map_some, hy], by simp [hky], ?_⟩
    rw [stamp_some hky]
    split at h
    case isTrue hlt => exact Or.inr ⟨hlt, by rw [← hy]; exact (Outcome.done.inj h).symm⟩
    case isFalse hle => exact Or.inl ⟨not_lt.mp hle, by rw [← hy]; exact (Outcome.done.inj h).symm⟩

/-- Whatever the links are, a search that returns went along nodes not stamped later, stopped in front
    of one that is, and wrote nothing. -/
theorem search_done {n : ℕ} {q' : Queue α} {prev t : Ptr}
    (hhead : ∀ a, q.head = some a → stamp q.mem a ≤ when)
    (h : loop (searchPass (some e) when) n (q, q.head) = .done (q', prev, t)) :
    q' = q ∧ ∃ l p y, prev = some p ∧ t = some y ∧ Seg Link.next q.mem q.head (l ++ [p]) (some y) ∧
      (∀ a ∈ l ++ [p], stamp q.mem a ≤ when) ∧ (q.mem y).isSome ∧ when < stamp q.mem y := by
  -- the cursor is NULL, which no pass survives, or the end of a path of such nodes
  refine loop_partial
    (I := fun s : Queue α × Ptr => s.2 = none ∨ s.1 = q ∧ ∃ l c, s.2 = some c ∧
      Seg Link.next q.mem q.head l (some c) ∧ ∀ a ∈ l ++ [c], stamp q.mem a ≤ when)
    (P := fun r : Queue α × Ptr × Ptr => r.1 = q ∧ ∃ l p y, r.2.1 = some p ∧ r.2.2 = some y ∧
      Seg Link.next q.mem q.head (l ++ [p]) (some y) ∧ (∀ a ∈ l ++ [p], stamp q.mem a ≤ when) ∧
      (q.mem y).isSome ∧ when < stamp q.mem y)
    ?_ ?_ n (q, q.head) (q', prev, t) ?_ h
  · rintro ⟨q₁, t⟩ ⟨q₂, t'⟩ (rfl | ⟨hq₁, l, c, rfl, hs, hle⟩) hpass
    · cases hpass
    · obtain rfl : q₁ = q := hq₁
      rcases searchPass_done hpass with ⟨q₃, hr⟩ | ⟨y, hy, -, ⟨hley, hr⟩ | ⟨-, hr⟩⟩
      · exact Or.inl (Prod.mk.inj (Sum.inl.inj hr)).2
      · obtain ⟨rfl, rfl⟩ := Prod.mk.inj (Sum.inl.inj hr)
        refine Or.inr ⟨rfl, l ++ [c], y, rfl, seg_concat.mpr ⟨hs, hy⟩, ?_⟩
        rw [List.forall_mem_append, List.forall_mem_singleton]
        exact ⟨hle, hley⟩
      · cases hr
  · rintro ⟨q₁, t⟩ ⟨q₂, prev, t'⟩ (rfl | ⟨hq₁, l, c, rfl, hs, hle⟩) hpass
    · cases hpass
    · obtain rfl : q₁ = q := hq₁
      rcases searchPass_done hpass with ⟨q₃, hr⟩ | ⟨y, hy, hlive, ⟨-, hr⟩ | ⟨hlt, hr⟩⟩
      · cases hr
      · cases hr
      · obtain ⟨rfl, hcursors⟩ := Prod.mk.inj (Sum.inr.inj hr)
        obtain ⟨rfl, rfl⟩ := Prod.mk.inj hcursors
        exact ⟨rfl, l, c, y, rfl, rfl, seg_concat.mpr ⟨hs, hy⟩, hle, hlive, hlt⟩
  · cases hh : q.head with
    | none => exact Or.inl rfl
    | some a => exact Or.inr ⟨rfl, [], a, rfl, rfl, by simpa using hhead a hh⟩

/-! ### The three ways a call goes -/

theorem enqueueAtTimeOut_stable (q : Queue α) (e : Ptr) (when : ℤ) :
    Stable (fun n => q.enqueueAtTimeOut n e when) := by
  refine (Stable.const (q.timedAtHead when)).bind ?_
  intro b
  cases b with
  | true => exact Stable.const _
  | false => exact (loop_stable _ _).bind fun _ => Stable.const _

/-- To the head. -/
theorem enqueueAtTimeOut_head (hq : q.Fwd xs) (h : before (stamp q.mem) when xs = []) {n : ℕ} :
    q.enqueueAtTimeOut n (some e) when = q.enqueueAtHead (some e) := by
  cases xs with
  | nil => simp only [enqueueAtTimeOut, timedAtHead_nil hq.head, Outcome.done_bind, if_true]
  | cons x rest =>
    have hcase : when = 0 ∨ when < stamp q.mem x := by
      by_contra hno
      push Not at hno
      simp [before, hno.1, hno.2] at h
    simp only [enqueueAtTimeOut, timedAtHead_cons hq.head (hq.live List.mem_cons_self), hcase,
      decide_true, Outcome.done_bind, if_true]

/-- Between `p` and `y`: three links are written, and the `prev` of `y` is not one of them. -/
theorem enqueueAtTimeOut_middle {l : List Addr}
    (hs : Seg Link.next q.mem q.head (l ++ [p]) (some y)) (he : (q.mem e).isSome)
    (hy : (q.mem y).isSome) (h0 : when ≠ 0) (hle : ∀ a ∈ l ++ [p], stamp q.mem a ≤ when)
    (hlt : when < stamp q.mem y) {n : ℕ} (hn : l.length + 1 < n) :
    q.enqueueAtTimeOut n (some e) when = .done
      { q with mem := ((q.mem.upd e (Link.withNext (some y))).upd p
          (Link.withNext (some e))).upd e (Link.withPrev (some p)) } := by
  obtain ⟨x, m, hm⟩ : ∃ x m, l ++ [p] = x :: m :=
    List.exists_cons_of_ne_nil (List.append_ne_nil_of_right_ne_nil _ (List.cons_ne_nil _ _))
  have hstart : q.timedAtHead when = .done false := by
    have hx := hle x (by rw [hm]; simp)
    rw [timedAtHead_cons (p := x) (by rw [hm] at hs; exact hs.1)
      (hs.live (by rw [hm]; simp))]
    simp [h0, hx]
  have hp : (q.mem p).isSome := hs.live (by simp)
  simp [enqueueAtTimeOut, hstart, search_stops hs hy hle hlt hn, setNext_some, setPrev_some, he, hp]

/-- Behind every node of a non-empty list: the call faults. -/
theorem enqueueAtTimeOut_end (hq : q.Fwd xs) (he : (q.mem e).isSome)
    (h : ¬Fits (stamp q.mem) when xs) {n : ℕ} (hn : xs.length < n) :
    q.enqueueAtTimeOut n (some e) when = .fault .nullDeref := by
  rw [fits_iff] at h
  push Not at h
  obtain ⟨hne, h0, hall⟩ := h
  have hstart : q.timedAtHead when = .done false := by
    obtain ⟨x, rest, rfl⟩ := List.exists_cons_of_ne_nil hne
    rw [timedAtHead_cons hq.head (hq.live List.mem_cons_self)]
    simp [h0, hall x List.mem_cons_self]
  simp [enqueueAtTimeOut, hstart, search_falls hq hne he hall hn]

/-- Whatever the links are, a call that returns went to the head or in front of the first node stamped
    later. -/
theorem enqueueAtTimeOut_path {n : ℕ} {q' : Queue α}
    (h : q.enqueueAtTimeOut n (some e) when = .done q') :
    q.AtHead when ∧ q.enqueueAtHead (some e) = .done q' ∨
    ∃ l p y, when ≠ 0 ∧ Seg Link.next q.mem q.head (l ++ [p]) (some y) ∧
      (∀ a ∈ l ++ [p], stamp q.mem a ≤ when) ∧ when < stamp q.mem y ∧ (q.mem y).isSome ∧
      (q.mem e).isSome ∧ q' = { q with mem := ((q.mem.upd e (Link.withNext (some y))).upd p
          (Link.withNext (some e))).upd e (Link.withPrev (some p)) } := by
  obtain ⟨b, hb, h⟩ := Outcome.bind_eq_done.mp h
  cases b with
  | true => exact Or.inl ⟨timedAtHead_true hb, h⟩
  | false =>
    obtain ⟨⟨q₁, prev, t⟩, hloop, h⟩ := Outcome.bind_eq_done.mp h
    have hat := timedAtHead_false hb
    have hhead : ∀ a, q.head = some a → stamp q.mem a ≤ when := fun a ha =>
      not_lt.mp fun hlt => hat (Or.inr (Or.inr ⟨a, ha, hlt⟩))
    obtain ⟨rfl, l, p, y, rfl, rfl, hs, hle, hy, hlt⟩ := search_done hhead hloop
    have he : (q₁.mem e).isSome := by
      by_contra hno
      rw [Option.not_isSome_iff_eq_none] at hno
      simp [setNext, Heap.modify, hno] at h
    have hp : (q₁.mem p).isSome := hs.live (by simp)
    simp only [setNext_some he, Outcome.done_bind] at h
    rw [setNext_some (by simpa using hp), Outcome.done_bind, setPrev_some (by simpa using he)] at h
    exact Or.inr ⟨l, p, y, fun h0 => hat (Or.inr (Or.inl h0)), hs, hle, hlt, hy, he,
      (Outcome.done.inj h).symm⟩

/-- Read off it: a call that returns went to the head or between two linked nodes. -/
theorem enqueueAtTimeOut_done {n : ℕ} {q' : Queue α}
    (h : q.enqueueAtTimeOut n (some e) when = .done q') :
    q.AtHead when ∧ q.enqueueAtHead (some e) = .done q' ∨
    ∃ p y m, q.Linked p ∧ q.mem p = some m ∧ m.next = some y ∧ when < stamp q.mem y ∧
      (q.mem e).isSome ∧ q' = { q with mem := ((q.mem.upd e (Link.withNext (some y))).upd p
          (Link.withNext (some e))).upd e (Link.withPrev (some p)) } := by
  refine (enqueueAtTimeOut_path h).imp_right ?_
  rintro ⟨l, p, y, -, hs, -, hlt, -, he, hq'⟩
  obtain ⟨hs, hnext⟩ := seg_concat.mp hs
  obtain ⟨m, hm, hmy⟩ := Option.map_eq_some_iff.mp hnext
  exact ⟨p, y, m, hs.reach, hm, hmy, hlt, he, hq'⟩

/-- Whatever the links are, a call that returns wrote links only. -/
theorem enqueueAtTimeOut_relinks {n : ℕ} {q' : Queue α}
    (h : q.enqueueAtTimeOut n (some e) when = .done q') : ∃ ks, Relinks ks q.mem q'.mem := by
  rcases enqueueAtTimeOut_done h with ⟨-, h⟩ | ⟨p, y, m, -, -, -, -, -, rfl⟩
  · obtain ⟨-, -, ⟨-, hmem⟩ | ⟨b, -, -, hmem⟩⟩ := enqueueAtHead_done h
    · exact ⟨[e], hmem ▸ (Relinks.refl.withNext (by simp)).withPrev (by simp)⟩
    · exact ⟨[e, b],
        hmem ▸ ((Relinks.refl.withNext (by simp)).withPrev (by simp)).withPrev (by simp)⟩
  · exact ⟨[e, p], ((Relinks.refl.withNext (by simp)).withNext (by simp)).withPrev (by simp)⟩

/-- Whatever the links are, a call that returns leaves a list that is not empty. -/
theorem enqueueAtTimeOut_not_empty {n : ℕ} {q' : Queue α}
    (h : q.enqueueAtTimeOut n (some e) when = .done q') : q'.isEmpty = false := by
  rcases enqueueAtTimeOut_done h with ⟨-, h⟩ | ⟨p, y, m, hp, -, -, -, -, rfl⟩
  · obtain ⟨-, hh, -⟩ := enqueueAtHead_done h
    simp [isEmpty, hh]
  · cases hh : q.head with
    | none =>
      rw [Linked, hh] at hp
      exact absurd hp Reach.not_none
    | some x => simp [isEmpty]

/-- A place that is not at the head is between two nodes. -/
theorem middle_of_fits {w : Addr → ℤ} (h : Fits w when xs) (hb : before w when xs ≠ []) :
    ∃ l p y r, xs = l ++ p :: y :: r ∧ before w when xs = l ++ [p] ∧ behind w when xs = y :: r ∧
      when ≠ 0 ∧ (∀ a ∈ l ++ [p], w a ≤ when) ∧ when < w y := by
  have hsplit := before_append_behind w when xs
  obtain ⟨l, p, hl⟩ := (List.eq_nil_or_concat (before w when xs)).resolve_left hb
  rw [List.concat_eq_append] at hl
  have h0 : when ≠ 0 := by
    rintro rfl
    simp [before] at hb
  obtain ⟨y, r, hr⟩ : ∃ y r, behind w when xs = y :: r := by
    refine List.exists_cons_of_ne_nil (h.resolve_left ?_)
    rintro rfl
    simp [before] at hb
  have hlt : when < w y := by
    have hhead := List.head?_dropWhile_not (fun a => decide (w a ≤ when)) xs
    have hdrop := hr
    simp only [behind, if_neg h0] at hdrop
    rw [hdrop] at hhead
    simpa using hhead
  refine ⟨l, p, y, r, ?_, hl, hr, h0, fun a ha => stamp_before (hl ▸ ha), hlt⟩
  rw [← hsplit, hl, hr, List.append_assoc, List.singleton_append]

/-- The call that puts a node between two nodes of a list. -/
theorem enqueueAtTimeOut_between {l r : List Addr} (hq : q.Fwd (l ++ p :: y :: r))
    (he : (q.mem e).isSome) (h0 : when ≠ 0) (hle : ∀ a ∈ l ++ [p], stamp q.mem a ≤ when)
    (hlt : when < stamp q.mem y) {n : ℕ} (hn : l.length + 1 < n) :
    q.enqueueAtTimeOut n (some e) when = .done
      { q with mem := ((q.mem.upd e (Link.withNext (some y))).upd p
          (Link.withNext (some e))).upd e (Link.withPrev (some p)) } := by
  have hnext := hq.next
  rw [List.append_cons] at hnext
  obtain ⟨m, hl, hy, -⟩ := seg_append.mp hnext
  exact enqueueAtTimeOut_middle (hy ▸ hl) he (hq.live (by simp)) h0 hle hlt hn

/-- Behind a head that is not stamped later, the first node stamped later has a node in front. -/
theorem exists_first_later {a : Addr} (ha : q.Linked a) (hlt : when < stamp q.mem a)
    (hat : ¬q.AtHead when) : ∃ l p y, Seg Link.next q.mem q.head (l ++ [p]) (some y) ∧
      (∀ x ∈ l ++ [p], stamp q.mem x ≤ when) ∧ q.Linked y ∧ when < stamp q.mem y := by
  obtain ⟨xs, y, hs, hxs, hy⟩ := ha.first (P := fun a => when < stamp q.mem a) hlt
  rcases List.eq_nil_or_concat xs with rfl | ⟨l, p, rfl⟩
  · exact absurd (Or.inr (Or.inr ⟨y, hs, hy⟩)) hat
  · rw [List.concat_eq_append] at hs hxs
    exact ⟨l, p, y, hs, fun x hx => not_lt.mp (hxs x hx), hs.reach, hy⟩

/-- At the head a call returns. -/
theorem enqueueAtTimeOut_atHead (he : (q.mem e).isSome)
    (hlive : ∀ a, q.Linked a → (q.mem a).isSome) (hat : q.AtHead when) :
    ∃ q', Completes (fun n => q.enqueueAtTimeOut n (some e) when) q' := by
  cases hh : q.head with
  | none => exact ⟨_, 0, by
      simp only [enqueueAtTimeOut, timedAtHead_nil hh, Outcome.done_bind, if_true]
      exact enqueueAtHead_nil hh he⟩
  | some b =>
    have hb : (q.mem b).isSome := hlive b (by rw [Linked, hh]; exact .here)
    have hcase : when = 0 ∨ when < stamp q.mem b := by
      rcases hat with hno | h0 | ⟨a, ha, hlt⟩
      · rw [hh] at hno; cases hno
      · exact Or.inl h0
      · rw [hh, Option.some.injEq] at ha
        exact Or.inr (ha ▸ hlt)
    exact ⟨_, 0, by
      simp only [enqueueAtTimeOut, timedAtHead_cons hh hb, hcase, decide_true, Outcome.done_bind,
        if_true]
      exact enqueueAtHead_cons hh he hb⟩

/-- Whatever the links are, as long as no linked node is gone: a call returns exactly when the list
    is empty, `when` is 0, or some linked node is stamped later. -/
theorem enqueueAtTimeOut_completes_iff (he : (q.mem e).isSome)
    (hlive : ∀ a, q.Linked a → (q.mem a).isSome) :
    (∃ q', Completes (fun n => q.enqueueAtTimeOut n (some e) when) q') ↔
      q.head = none ∨ when = 0 ∨ ∃ a, q.Linked a ∧ when < stamp q.mem a := by
  constructor
  · rintro ⟨q', n, hn⟩
    rcases enqueueAtTimeOut_done hn with ⟨hat, -⟩ | ⟨p, y, m, hp, hm, hnext, hlt, -⟩
    · refine hat.imp_right (Or.imp_right ?_)
      rintro ⟨a, ha, hlt⟩
      exact ⟨a, by rw [Linked, ha]; exact .here, hlt⟩
    · exact Or.inr (Or.inr ⟨y, hp.snoc hm hnext, hlt⟩)
  · intro h
    by_cases hat : q.AtHead when
    · exact enqueueAtTimeOut_atHead he hlive hat
    · obtain ⟨a, ha, hlt⟩ : ∃ a, q.Linked a ∧ when < stamp q.mem a := by
        rcases h with h | h | h
        · exact absurd (Or.inl h) hat
        · exact absurd (Or.inr (Or.inl h)) hat
        · exact h
      obtain ⟨l, p, y, hs, hle, hy⟩ := exists_first_later ha hlt hat
      have h0 : when ≠ 0 := fun h0 => hat (Or.inr (Or.inl h0))
      exact ⟨_, l.length + 2, enqueueAtTimeOut_middle hs he (hlive y hy.1) h0 hle hy.2 (by omega)⟩

/-- A call that finds a place puts the node there, read forwards. -/
theorem enqueueAtTimeOut_fwd (hq : q.Fwd xs) (hx : e ∉ xs) (he : (q.mem e).isSome)
    (h : Fits (stamp q.mem) when xs) {n : ℕ} (hn : xs.length < n) :
    ∃ q', q.enqueueAtTimeOut n (some e) when = .done q' ∧
      q'.Fwd (before (stamp q.mem) when xs ++ e :: behind (stamp q.mem) when xs) ∧
      Relinks (e :: xs) q.mem q'.mem := by
  by_cases hb : before (stamp q.mem) when xs = []
  · have hsplit := before_append_behind (stamp q.mem) when xs
    rw [hb, List.nil_append] at hsplit
    rw [enqueueAtTimeOut_head hq hb, hb, hsplit]
    exact enqueueAtHead_fwd hq hx he
  · obtain ⟨l, p, y, r, rfl, hbefore, hbehind, h0, hle, hlt⟩ := middle_of_fits h hb
    rw [hbefore, hbehind]
    have hnext : Seg Link.next q.mem q.head ((l ++ [p]) ++ y :: r) none := by simpa using hq.next
    have hnd : ((l ++ [p]) ++ y :: r).Nodup := by simpa using hq.nodup
    refine ⟨_, enqueueAtTimeOut_between hq he h0 hle hlt (by simp at hn; omega), ⟨?_, ?_⟩, ?_⟩
    · exact seg_next_upd_withPrev.mpr (hnext.splice hnd (by simpa using hx) he rfl (fun _ => rfl)
        fun _ => rfl)
    · rw [hq.tail]
      simp
    · exact ((Relinks.refl.withNext (by simp)).withNext (by simp)).withPrev (by simp)

/-- A call that completes found a place, and put the node there. -/
theorem enqueueAtTimeOut_completes (hq : q.Fwd xs) (hx : e ∉ xs) (he : (q.mem e).isSome)
    {q' : Queue α} (h : Completes (fun n => q.enqueueAtTimeOut n (some e) when) q') :
    Fits (stamp q.mem) when xs ∧
      q'.Fwd (before (stamp q.mem) when xs ++ e :: behind (stamp q.mem) when xs) ∧
      Relinks (e :: xs) q.mem q'.mem := by
  have hstable := enqueueAtTimeOut_stable q (some e) when
  have hfits : Fits (stamp q.mem) when xs := by
    by_contra hno
    exact hstable.not_completes ⟨_, enqueueAtTimeOut_end hq he hno (Nat.lt_succ_self _)⟩ ⟨q', h⟩
  obtain ⟨q₁, hq₁, hfwd, hrel⟩ := enqueueAtTimeOut_fwd hq hx he hfits (Nat.lt_succ_self _)
  obtain rfl := hstable.completes_unique h ⟨_, hq₁⟩
  exact ⟨hfits, hfwd, hrel⟩

/-- On a list of live nodes a call never meets one that is gone, even if it fails. -/
theorem enqueueAtTimeOut_not_dangling (hq : q.Fwd xs) (hx : e ∉ xs) (he : (q.mem e).isSome)
    (n : ℕ) : q.enqueueAtTimeOut n (some e) when ≠ .fault .dangling := by
  refine (enqueueAtTimeOut_stable q (some e) when).ne_fault (m := xs.length + 1) ?_ n
  rcases em (Fits (stamp q.mem) when xs) with hfits | hno
  · obtain ⟨q', hq', -⟩ := enqueueAtTimeOut_fwd hq hx he hfits (Nat.lt_succ_self _)
    exact Or.inl ⟨q', hq'⟩
  · exact Or.inr ⟨.nullDeref, by simp, enqueueAtTimeOut_end hq he hno (Nat.lt_succ_self _)⟩

end Queue

end ThreadManager
