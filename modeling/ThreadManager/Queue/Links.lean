import ThreadManager.Queue.Queue

/-! What the untimed methods of `Queue<T>` do to the links.

    Each method gets one lemma about what it makes of a queue that represents a list: the forward
    reading (`Fwd`) where the `prev` links play no part, and the two-way reading (`Repr`). `Relinks`
    is the frame: only links of the named nodes are written, and never the rest of an object. -/

namespace ThreadManager
open Schemes

variable {α : Type} {h h' : Heap (Link α)} {p r v : Ptr} {a b e : Addr} {xs ks : List Addr}

/-! ### Reading past a write -/

@[simp] theorem map_next_upd_withPrev :
    (h.upd a (Link.withPrev v) b).map Link.next = (h b).map Link.next :=
  Heap.map_upd_of_eq fun _ => rfl

@[simp] theorem map_prev_upd_withNext :
    (h.upd a (Link.withNext v) b).map Link.prev = (h b).map Link.prev :=
  Heap.map_upd_of_eq fun _ => rfl

@[simp] theorem map_obj_upd_withNext :
    (h.upd a (Link.withNext v) b).map Link.obj = (h b).map Link.obj :=
  Heap.map_upd_of_eq fun _ => rfl

@[simp] theorem map_obj_upd_withPrev :
    (h.upd a (Link.withPrev v) b).map Link.obj = (h b).map Link.obj :=
  Heap.map_upd_of_eq fun _ => rfl

theorem map_next_upd_same (ha : (h a).isSome) :
    (h.upd a (Link.withNext v) a).map Link.next = some v :=
  Heap.map_upd_same (fun _ => rfl) ha

theorem map_prev_upd_same (ha : (h a).isSome) :
    (h.upd a (Link.withPrev v) a).map Link.prev = some v :=
  Heap.map_upd_same (fun _ => rfl) ha

@[simp] theorem seg_next_upd_withPrev :
    Seg Link.next (h.upd a (Link.withPrev v)) p xs r ↔ Seg Link.next h p xs r :=
  ⟨fun hs => hs.congr fun _ _ => map_next_upd_withPrev.symm, fun hs => hs.upd_other fun _ => rfl⟩

@[simp] theorem seg_prev_upd_withNext :
    Seg Link.prev (h.upd a (Link.withNext v)) p xs r ↔ Seg Link.prev h p xs r :=
  ⟨fun hs => hs.congr fun _ _ => map_prev_upd_withNext.symm, fun hs => hs.upd_other fun _ => rfl⟩

/-- Only links of nodes in `ks` may differ, and nothing of an object but its links. -/
structure Relinks (ks : List Addr) (h h' : Heap (Link α)) : Prop where
  out : ∀ a, a ∉ ks → h' a = h a
  obj : ∀ a, (h' a).map Link.obj = (h a).map Link.obj

namespace Relinks

theorem refl : Relinks ks h h := ⟨fun _ _ => rfl, fun _ => rfl⟩

theorem withNext (hr : Relinks ks h h') (ha : a ∈ ks) :
    Relinks ks h (h'.upd a (Link.withNext v)) :=
  ⟨fun b hb => by rw [Heap.upd_of_ne (ne_of_mem_of_not_mem ha hb).symm, hr.out b hb],
    fun b => by rw [map_obj_upd_withNext, hr.obj b]⟩

theorem withPrev (hr : Relinks ks h h') (ha : a ∈ ks) :
    Relinks ks h (h'.upd a (Link.withPrev v)) :=
  ⟨fun b hb => by rw [Heap.upd_of_ne (ne_of_mem_of_not_mem ha hb).symm, hr.out b hb],
    fun b => by rw [map_obj_upd_withPrev, hr.obj b]⟩

theorem mono {ks' : List Addr} (hr : Relinks ks h h') (hsub : ∀ a ∈ ks, a ∈ ks') :
    Relinks ks' h h' :=
  ⟨fun a ha => hr.out a fun hk => ha (hsub a hk), hr.obj⟩

theorem live (hr : Relinks ks h h') (a : Addr) : (h' a).isSome = (h a).isSome := by
  simpa using congrArg Option.isSome (hr.obj a)

end Relinks

namespace Queue

variable {q : Queue α}

/-! ### enqueueAtHead -/

theorem enqueueAtHead_nil (hh : q.head = none) (he : (q.mem e).isSome) :
    q.enqueueAtHead (some e) = .done
      ⟨(q.mem.upd e (Link.withNext none)).upd e (Link.withPrev none), some e, some e⟩ := by
  simp [enqueueAtHead, setNext_some, setPrev_some, hh, he]

theorem enqueueAtHead_cons (hh : q.head = some b) (he : (q.mem e).isSome)
    (hb : (q.mem b).isSome) :
    q.enqueueAtHead (some e) = .done
      ⟨((q.mem.upd e (Link.withNext (some b))).upd b (Link.withPrev (some e))).upd e
        (Link.withPrev none), some e, q.tail⟩ := by
  simp [enqueueAtHead, setNext_some, setPrev_some, hh, he, hb]

/-- Whatever the links are, a call that returns wrote the links of the new node, and at most the
    `prev` link of the old head. -/
theorem enqueueAtHead_done {q' : Queue α} (h : q.enqueueAtHead (some e) = .done q') :
    (q.mem e).isSome ∧ q'.head = some e ∧
      (q.head = none ∧
          q'.mem = (q.mem.upd e (Link.withNext none)).upd e (Link.withPrev none) ∨
        ∃ b, q.head = some b ∧ (q.mem b).isSome ∧
          q'.mem = ((q.mem.upd e (Link.withNext (some b))).upd b (Link.withPrev (some e))).upd e
            (Link.withPrev none)) := by
  have he : (q.mem e).isSome := by
    by_contra hno
    simp [enqueueAtHead, setNext, Heap.modify_dead hno] at h
  refine ⟨he, ?_⟩
  cases hh : q.head with
  | none =>
    rw [enqueueAtHead_nil hh he, Outcome.done.injEq] at h
    subst h
    exact ⟨rfl, Or.inl ⟨rfl, rfl⟩⟩
  | some b =>
    have hb : (q.mem b).isSome := by
      by_contra hno
      have hno' : ¬(q.mem.upd e (Link.withNext (some b)) b).isSome := by simpa using hno
      simp [enqueueAtHead, setNext_some he, hh, setPrev, Heap.modify_dead hno'] at h
    rw [enqueueAtHead_cons hh he hb, Outcome.done.injEq] at h
    subst h
    exact ⟨rfl, Or.inr ⟨b, rfl, hb, rfl⟩⟩

/-- Prepending, read forwards. -/
theorem enqueueAtHead_fwd (hq : q.Fwd xs) (hx : e ∉ xs) (he : (q.mem e).isSome) :
    ∃ q', q.enqueueAtHead (some e) = .done q' ∧ q'.Fwd (e :: xs) ∧
      Relinks (e :: xs) q.mem q'.mem := by
  cases xs with
  | nil =>
    refine ⟨_, enqueueAtHead_nil hq.head he, ⟨?_, rfl⟩, ?_⟩
    · exact seg_next_upd_withPrev.mpr ⟨rfl, none, map_next_upd_same he, rfl⟩
    · exact (Relinks.refl.withNext (by simp)).withPrev (by simp)
  | cons b l =>
    have hn := hq.next
    rw [hq.head] at hn
    refine ⟨_, enqueueAtHead_cons hq.head he (hq.live (by simp)), ⟨?_, ?_⟩, ?_⟩
    · simp only [seg_next_upd_withPrev]
      exact ⟨rfl, some b, map_next_upd_same he, hn.upd_out hx⟩
    · rw [hq.tail, List.getLast?_cons_cons]
    · exact ((Relinks.refl.withNext (by simp)).withPrev (by simp)).withPrev (by simp)

/-- Prepending, read both ways. -/
theorem enqueueAtHead_repr (hq : q.Repr xs) (hx : e ∉ xs) (he : (q.mem e).isSome) :
    ∃ q', q.enqueueAtHead (some e) = .done q' ∧ q'.Repr (e :: xs) ∧
      Relinks (e :: xs) q.mem q'.mem := by
  obtain ⟨q', hdone, hfwd, hrel⟩ := enqueueAtHead_fwd hq.fwd hx he
  refine ⟨q', hdone, ⟨hfwd.next, ?_⟩, hrel⟩
  rw [List.reverse_cons]
  cases xs with
  | nil =>
    rw [enqueueAtHead_nil hq.fwd.head he, Outcome.done.injEq] at hdone
    subst hdone
    exact ⟨rfl, none, map_prev_upd_same (by simpa using he), rfl⟩
  | cons b l =>
    have hb : (q.mem b).isSome := hq.fwd.live (by simp)
    have hbl : b ∉ l.reverse := by simpa using (List.nodup_cons.mp hq.fwd.nodup).1
    have hp := hq.prev
    rw [List.reverse_cons] at hp
    rw [enqueueAtHead_cons hq.fwd.head he hb, Outcome.done.injEq] at hdone
    subst hdone
    have hxr : e ∉ l.reverse ++ [b] := by rwa [← List.reverse_cons, List.mem_reverse]
    rw [List.reverse_cons, seg_concat]
    refine ⟨Seg.upd_out ?_ hxr, map_prev_upd_same (by simpa using he)⟩
    exact (seg_prev_upd_withNext.mpr hp).redirect hbl fun _ => rfl

/-! ### enqueueAtTail -/

theorem enqueueAtTail_nil (ht : q.tail = none) (he : (q.mem e).isSome) :
    q.enqueueAtTail (some e) = .done
      ⟨(q.mem.upd e (Link.withPrev none)).upd e (Link.withNext none), some e, some e⟩ := by
  simp [enqueueAtTail, setNext_some, setPrev_some, ht, he]

theorem enqueueAtTail_concat (ht : q.tail = some b) (he : (q.mem e).isSome)
    (hb : (q.mem b).isSome) :
    q.enqueueAtTail (some e) = .done
      ⟨((q.mem.upd e (Link.withPrev (some b))).upd b (Link.withNext (some e))).upd e
        (Link.withNext none), q.head, some e⟩ := by
  simp [enqueueAtTail, setNext_some, setPrev_some, ht, he, hb]

/-- Appending, read both ways. -/
theorem enqueueAtTail_repr (hq : q.Repr xs) (hx : e ∉ xs) (he : (q.mem e).isSome) :
    ∃ q', q.enqueueAtTail (some e) = .done q' ∧ q'.Repr (xs ++ [e]) ∧
      Relinks (e :: xs) q.mem q'.mem := by
  rcases List.eq_nil_or_concat xs with rfl | ⟨l, b, rfl⟩
  · refine ⟨_, enqueueAtTail_nil hq.fwd.tail he, ⟨?_, ?_⟩, ?_⟩
    · exact ⟨rfl, none, map_next_upd_same (by simpa using he), rfl⟩
    · exact seg_prev_upd_withNext.mpr ⟨rfl, none, map_prev_upd_same he, rfl⟩
    · exact (Relinks.refl.withPrev (by simp)).withNext (by simp)
  · rw [List.concat_eq_append] at hq hx ⊢
    have hb : (q.mem b).isSome := hq.fwd.live (by simp)
    have hbl : b ∉ l := fun hmem => by
      have hnd := hq.fwd.nodup
      rw [List.nodup_append] at hnd
      exact hnd.2.2 b hmem b (List.mem_singleton_self b) rfl
    have ht : q.tail = some b := by rw [hq.fwd.tail, List.getLast?_concat]
    refine ⟨_, enqueueAtTail_concat ht he hb, ⟨?_, ?_⟩, ?_⟩
    · rw [seg_concat]
      refine ⟨Seg.upd_out ?_ hx, map_next_upd_same (by simpa using he)⟩
      exact (seg_next_upd_withPrev.mpr hq.next).redirect hbl fun _ => rfl
    · rw [List.reverse_concat]
      simp only [seg_prev_upd_withNext]
      have hp := hq.prev
      rw [ht] at hp
      exact ⟨rfl, some b, map_prev_upd_same he, hp.upd_out fun hmem => hx (List.mem_reverse.mp hmem)⟩
    · exact ((Relinks.refl.withPrev (by simp)).withNext (by simp)).withNext (by simp)

/-! ### dequeueAtHead -/

theorem dequeueAtHead_nil (hh : q.head = none) : q.dequeueAtHead = .fault .nullDeref := by
  simp [dequeueAtHead, hh]

theorem dequeueAtHead_singleton {n : Link α} (hh : q.head = some e) (hn : q.mem e = some n)
    (hnext : n.next = none) : q.dequeueAtHead = .done (some e, ⟨q.mem, none, none⟩) := by
  simp [dequeueAtHead, hh, Heap.deref_some hn, hnext]

theorem dequeueAtHead_cons {n : Link α} (hh : q.head = some e) (hn : q.mem e = some n)
    (hnext : n.next = some b) (hb : (q.mem b).isSome) :
    q.dequeueAtHead = .done (some e, ⟨q.mem.upd b (Link.withPrev none), some b, q.tail⟩) := by
  simp [dequeueAtHead, hh, Heap.deref_some hn, hnext, setPrev_some, hb]

/-- Whatever the links are, a call that returns took off the first node and wrote at most the `prev`
    link of its successor. -/
theorem dequeueAtHead_done {q' : Queue α} (h : q.dequeueAtHead = .done (p, q')) :
    ∃ a n, q.head = some a ∧ q.mem a = some n ∧ p = some a ∧ q'.head = n.next ∧
      (n.next = none ∧ q'.mem = q.mem ∧ q'.tail = none ∨
        ∃ b, n.next = some b ∧ (q.mem b).isSome ∧ q'.mem = q.mem.upd b (Link.withPrev none) ∧
          q'.tail = q.tail) := by
  obtain ⟨n, hn, h⟩ := Outcome.bind_eq_done.mp h
  obtain ⟨a, ha, hna⟩ := Heap.deref_eq_done.mp hn
  refine ⟨a, n, ha, hna, ?_⟩
  cases hnext : n.next with
  | none =>
    simp only [hnext, Option.isSome_none, Bool.false_eq_true, if_false, Outcome.pure_eq,
      Outcome.done_bind, Outcome.done.injEq, Prod.mk.injEq] at h
    obtain ⟨rfl, rfl⟩ := h
    exact ⟨ha, rfl, Or.inl ⟨rfl, rfl, rfl⟩⟩
  | some b =>
    simp only [hnext, Option.isSome_some, if_true] at h
    obtain ⟨q₁, hq₁, h⟩ := Outcome.bind_eq_done.mp h
    obtain ⟨h₁, hh₁, hq₁⟩ := Outcome.bind_eq_done.mp hq₁
    obtain ⟨_, hb, hlive, rfl⟩ := Heap.modify_eq_done.mp hh₁
    obtain rfl := Option.some.inj hb
    obtain rfl := Outcome.done.inj hq₁
    obtain ⟨rfl, rfl⟩ := Prod.mk.inj (Outcome.done.inj h)
    exact ⟨ha, rfl, Or.inr ⟨b, rfl, hlive, rfl, rfl⟩⟩

/-- Dropping the first node, read forwards. -/
theorem dequeueAtHead_fwd (hq : q.Fwd (e :: xs)) :
    ∃ q', q.dequeueAtHead = .done (some e, q') ∧ q'.Fwd xs ∧ Relinks xs q.mem q'.mem := by
  obtain ⟨hh, r, hr, hs⟩ := hq.next
  obtain ⟨n, hn, rfl⟩ := Option.map_eq_some_iff.mp hr
  cases xs with
  | nil => exact ⟨_, dequeueAtHead_singleton hh hn hs, ⟨rfl, rfl⟩, .refl⟩
  | cons b l =>
    refine ⟨_, dequeueAtHead_cons hh hn hs.1 (hs.live (by simp)), ⟨?_, ?_⟩, ?_⟩
    · exact seg_next_upd_withPrev.mpr (hs.1 ▸ hs)
    · rw [hq.tail, List.getLast?_cons_cons]
    · exact Relinks.refl.withPrev (by simp)

/-- Dropping the first node, read both ways. -/
theorem dequeueAtHead_repr (hq : q.Repr (e :: xs)) :
    ∃ q', q.dequeueAtHead = .done (some e, q') ∧ q'.Repr xs ∧ Relinks xs q.mem q'.mem := by
  obtain ⟨q', hdone, hfwd, hrel⟩ := dequeueAtHead_fwd hq.fwd
  refine ⟨q', hdone, ⟨hfwd.next, ?_⟩, hrel⟩
  obtain ⟨hh, r, hr, hs⟩ := hq.next
  obtain ⟨n, hn, rfl⟩ := Option.map_eq_some_iff.mp hr
  cases xs with
  | nil => exact hfwd.tail
  | cons b l =>
    have hp := hq.prev
    rw [List.reverse_cons, seg_concat, List.reverse_cons] at hp
    have hbl : b ∉ l.reverse := by simpa using (List.nodup_cons.mp hfwd.nodup).1
    rw [dequeueAtHead_cons hh hn hs.1 (hs.live (by simp)), Outcome.done.injEq,
      Prod.mk.injEq] at hdone
    obtain ⟨-, rfl⟩ := hdone
    rw [List.reverse_cons]
    exact hp.1.redirect hbl fun _ => rfl

/-! ### dequeue -/

/-- The first half of `dequeue` takes `e` out of the forward list and leaves `prev` alone. -/
theorem dequeue_next {n : Link α} (hn : q.mem e = some n) {l m : List Addr}
    (hq : q.Repr (l ++ e :: m)) :
    ∃ q₁, (if n.prev.isSome then q.setNext n.prev n.next else pure { q with head := n.next })
        = .done q₁ ∧ q₁.tail = q.tail ∧ q₁.mem e = some n ∧
      Seg Link.next q₁.mem q₁.head (l ++ m) none ∧
      Seg Link.prev q₁.mem q₁.tail (l ++ e :: m).reverse none ∧ Relinks (l ++ m) q.mem q₁.mem := by
  have hp := hq.prev
  rw [List.reverse_append, List.reverse_cons, List.append_assoc, seg_append] at hp
  obtain ⟨-, -, -, r, hr, hl⟩ := hp
  rw [hn] at hr
  obtain rfl : n.prev = r := by simpa using hr
  have hnext : (q.mem e).map Link.next = some n.next := by rw [hn]; rfl
  rcases List.eq_nil_or_concat l with rfl | ⟨l, b, rfl⟩
  · have hnp : n.prev = none := by simpa using hl
    refine ⟨{ q with head := n.next }, by simp [hnp], rfl, hn, ?_, hq.prev, .refl⟩
    obtain ⟨-, r, hr, hm⟩ := hq.next
    rw [hnext, Option.some.injEq] at hr
    subst hr
    exact hm
  · rw [List.concat_eq_append] at hl hq ⊢
    have hnp : n.prev = some b := by simpa using hl.head_eq
    have hb : (q.mem b).isSome := hq.fwd.live (by simp)
    have hne : e ≠ b := fun h => by
      have hnd := (List.nodup_append.mp hq.fwd.nodup).2.2
      exact hnd b (by simp) e (by simp) h.symm
    refine ⟨{ q with mem := q.mem.upd b (Link.withNext n.next) }, ?_, rfl, ?_, ?_, ?_, ?_⟩
    · rw [hnp, Option.isSome_some, if_pos rfl, setNext_some hb]
    · rw [← hn]; exact Heap.upd_of_ne hne
    · exact hq.next.bypass hq.fwd.nodup hnext fun _ => rfl
    · exact seg_prev_upd_withNext.mpr hq.prev
    · exact Relinks.refl.withNext (by simp)

/-- Taking out any node, read both ways. -/
theorem dequeue_repr {l m : List Addr} (hq : q.Repr (l ++ e :: m)) :
    ∃ q', q.dequeue (some e) = .done q' ∧ q'.Repr (l ++ m) ∧ Relinks (l ++ m) q.mem q'.mem := by
  obtain ⟨n, hn⟩ := Option.isSome_iff_exists.mp (hq.fwd.live (a := e) (by simp))
  obtain ⟨q₁, hdone, htail, hn₁, hnx, hpv, hrel⟩ := dequeue_next hn hq
  have hm := hq.next
  rw [seg_append] at hm
  obtain ⟨-, -, -, r, hr, hm⟩ := hm
  rw [hn] at hr
  obtain rfl : n.next = r := by simpa using hr
  have hrun : q.dequeue (some e) =
      if n.next.isSome then q₁.setPrev n.next n.prev else pure { q₁ with tail := n.prev } := by
    simp only [dequeue, Heap.deref_some hn, Outcome.done_bind, hdone, Heap.deref_some hn₁]
  have hprev : (q₁.mem e).map Link.prev = some n.prev := by rw [hn₁]; rfl
  rw [hrun]
  -- the same argument as for `next`, with the roles of the two ends exchanged
  cases m with
  | nil =>
    have hnn : n.next = none := by simpa using hm
    rw [List.reverse_append, List.reverse_singleton] at hpv
    obtain ⟨-, r, hr, hl⟩ := hpv
    rw [hprev, Option.some.injEq] at hr
    subst hr
    refine ⟨{ q₁ with tail := n.prev }, by simp [hnn], ⟨hnx, ?_⟩, hrel⟩
    simpa using hl
  | cons c m =>
    have hnn : n.next = some c := hm.1
    have hc : (q₁.mem c).isSome := hnx.live (by simp)
    have hnd := List.nodup_reverse.mpr hq.fwd.nodup
    have hrev : (l ++ e :: c :: m).reverse = (m.reverse ++ [c]) ++ e :: l.reverse := by simp
    rw [hrev] at hpv hnd
    refine ⟨{ q₁ with mem := q₁.mem.upd c (Link.withPrev n.prev) }, ?_, ⟨?_, ?_⟩, ?_⟩
    · rw [hnn, Option.isSome_some, if_pos rfl, setPrev_some hc]
    · exact seg_next_upd_withPrev.mpr hnx
    · have hout := hpv.bypass hnd hprev (f := Link.withPrev n.prev) fun _ => rfl
      simpa using hout
    · exact hrel.withPrev (by simp)

/-- In a two-way list the node behind `a` points back to `a`. -/
theorem Repr.prev_eq {l m : List Addr} {a b : Addr} (hq : q.Repr (l ++ a :: b :: m)) :
    (q.mem b).map Link.prev = some (some a) := by
  have hp := hq.prev
  rw [show (l ++ a :: b :: m).reverse = m.reverse ++ b :: a :: l.reverse by simp, seg_append] at hp
  obtain ⟨-, -, -, r, hr, hra, -⟩ := hp
  rw [hr, hra]

/-! ### isEmpty and count -/

/-- `count` stops, with the length modulo the width of its `uint32_t`. -/
theorem count_fwd (hq : q.Fwd xs) {n : ℕ} (hn : xs.length < n) :
    q.count n = .done (xs.length % 2 ^ 32) := by
  -- at a pass the nodes still to come and the result so far add up to the whole length
  refine loop_total (R := fun k (s : Ptr × ℕ) => ∃ ys, Seg Link.next q.mem s.1 ys none ∧
    ys.length = k ∧ s.2 < 2 ^ 32 ∧ (s.2 + k) % 2 ^ 32 = xs.length % 2 ^ 32)
    (P := fun o => o = .done (xs.length % 2 ^ 32)) ?_ n xs.length (q.head, 0)
    ⟨xs, hq.next, rfl, by norm_num, by simp⟩ hn
  rintro k ⟨p, r⟩ ⟨ys, hs, rfl, hlt, hsum⟩
  cases ys with
  | nil =>
    right; left
    have hp : p = none := hs
    have hr : r = xs.length % 2 ^ 32 := by rw [← hsum, List.length_nil, add_zero, Nat.mod_eq_of_lt hlt]
    exact ⟨r, by simp [countPass, hp], by rw [hr]⟩
  | cons a ys =>
    left
    obtain ⟨rfl, t, ht, hs⟩ := hs
    obtain ⟨m, hm, rfl⟩ := Option.map_eq_some_iff.mp ht
    refine ⟨(m.next, (r + 1) % 2 ^ 32), by simp [countPass, Heap.deref_some hm],
      ys.length, by simp, ys, hs, rfl, Nat.mod_lt _ (by norm_num), ?_⟩
    rw [← hsum, List.length_cons]
    simp only []
    omega

end Queue

end ThreadManager
