import ThreadManager.Message.Mailbox

/-! The order of the queue: by requested time, and by arrival where the times are equal.

    An insertion goes in front of the first message stamped later than its `when`. It belongs in
    front of the first message requested for later. The two agree exactly when the two searches
    stop at the same message, and then the order is kept. -/

namespace ThreadManager
open Schemes

namespace Mailbox

variable {w : Addr → ℤ} {ok : Addr → Prop} {b b' : Mailbox} {c : Call} {a m : Addr} {when : ℤ}
  {l r xs : List Addr}

/-- The `when` that `m` was last accepted with, and 0 if it never was. -/
def requested (b : Mailbox) (m : Addr) : ℤ := (b.arrivals.reverse.lookup m).getD 0

/-- `a` was requested for an earlier time than `c`, or for the same time and arrived first. -/
def Precedes (b : Mailbox) (a c : Addr) : Prop :=
  b.requested a < b.requested c ∨
    b.requested a = b.requested c ∧ b.accepted.idxOf a < b.accepted.idxOf c

/-- The linked messages stand in the order of their requested times and, where these are equal, of
    their arrival. -/
def Ordered (b : Mailbox) : Prop := b.linked.Pairwise b.Precedes

/-- The first message later than `when`. -/
def firstLater (w : Addr → ℤ) (when : ℤ) (xs : List Addr) : Option Addr :=
  xs.find? fun a => when < w a

/-- A list with one more member is ordered when the rest is and the new one stands right. -/
theorem pairwise_insert {R : Addr → Addr → Prop} :
    (l ++ m :: r).Pairwise R ↔
      (l ++ r).Pairwise R ∧ (∀ a ∈ l, R a m) ∧ ∀ c ∈ r, R m c := by
  simp only [List.pairwise_append, List.pairwise_cons, List.mem_cons, forall_eq_or_imp]
  constructor
  · rintro ⟨hl, ⟨hmr, hr⟩, hlr⟩
    exact ⟨⟨hl, hr, fun a ha => (hlr a ha).2⟩, fun a ha => (hlr a ha).1, hmr⟩
  · rintro ⟨⟨hl, hr, hlr⟩, hlm, hmr⟩
    exact ⟨hl, ⟨hmr, hr⟩, fun a ha => ⟨hlm a ha, hlr a ha⟩⟩

theorem firstLater_eq (h0 : when ≠ 0) : firstLater w when xs = (behind w when xs).head? := by
  rw [firstLater, List.find?_eq_head?_dropWhile_not, behind, if_neg h0]
  simp only [decide_not, ← not_lt]

/-- The place of the search by `w` is a boundary for `v` exactly when the search by `v` would stop
    at the same message. -/
theorem boundary_iff {v : Addr → ℤ} (h0 : when ≠ 0) (hnd : xs.Nodup) (hfits : Fits w when xs)
    (hv : xs.Pairwise fun a c => v a ≤ v c) :
    ((∀ a ∈ before w when xs, v a ≤ when) ∧ ∀ c ∈ behind w when xs, when < v c) ↔
      firstLater w when xs = firstLater v when xs := by
  have hsplit := before_append_behind w when xs
  rw [firstLater_eq h0]
  cases hr : behind w when xs with
  | nil =>
    have hxs : xs = [] := hfits.resolve_right (not_not.mpr hr)
    subst hxs
    simp [before, firstLater]
  | cons y r =>
    rw [hr] at hsplit
    rw [← hsplit] at hnd hv
    have hfind : firstLater v when xs =
        ((before w when xs).find? fun a => when < v a).or ((y :: r).find? fun a => when < v a) := by
      rw [firstLater, ← List.find?_append, hsplit]
    rw [hfind, List.head?_cons]
    constructor
    · rintro ⟨hl, hy⟩
      have hnone : ((before w when xs).find? fun a => when < v a) = none := by
        rw [List.find?_eq_none]
        intro a ha
        simpa using hl a ha
      have hlt := hy y List.mem_cons_self
      simp [hnone, hlt]
    · intro h
      -- `y` stands behind `before`, so nothing in front of it is later by `v`
      have hnone : ((before w when xs).find? fun a => when < v a) = none := by
        by_contra hsome
        obtain ⟨z, hz⟩ := Option.ne_none_iff_exists'.mp hsome
        rw [hz, Option.some_or, Option.some.injEq] at h
        have hmem := List.mem_of_find?_eq_some hz
        exact (List.nodup_append.mp hnd).2.2 z hmem y List.mem_cons_self h.symm
      rw [hnone, Option.none_or] at h
      have hy : when < v y := by simpa using List.find?_some h.symm
      refine ⟨?_, ?_⟩
      · intro a ha
        simpa using List.find?_eq_none.mp hnone a ha
      · intro c hc
        rcases List.mem_cons.mp hc with rfl | hc
        · exact hy
        · have hyc := (List.pairwise_cons.mp (List.pairwise_append.mp hv).2.1).1 c hc
          omega

/-! ### What an accepted call does to the order -/

section Accepted

/-- The mailbox after `m` was accepted with `when`, with `ys` linked. -/
def accept (b : Mailbox) (m : Addr) (when : ℤ) (ys : List Addr) : Mailbox :=
  { b with linked := ys, arrivals := b.arrivals ++ [(m, when)] }

variable {ys : List Addr}

theorem requested_accept_self : (b.accept m when ys).requested m = when := by
  simp [requested, accept]

theorem requested_accept_of_ne (ha : a ≠ m) :
    (b.accept m when ys).requested a = b.requested a := by
  have hne : (a == m) = false := by simpa using ha
  simp [requested, accept, List.lookup_cons, hne]

theorem accepted_accept : (b.accept m when ys).accepted = b.accepted ++ [m] := by
  simp [accepted, accept]

variable {c : Addr}

theorem precedes_accept_old (ha : a ∈ b.accepted) (hc : c ∈ b.accepted) (hm : m ∉ b.accepted) :
    (b.accept m when ys).Precedes a c ↔ b.Precedes a c := by
  rw [Precedes, requested_accept_of_ne (ne_of_mem_of_not_mem ha hm),
    requested_accept_of_ne (ne_of_mem_of_not_mem hc hm), accepted_accept,
    List.idxOf_append_of_mem ha, List.idxOf_append_of_mem hc, Precedes]

/-- The new message arrived last, so it follows what was requested for the same time. -/
theorem precedes_accept_new (ha : a ∈ b.accepted) (hm : m ∉ b.accepted) :
    ((b.accept m when ys).Precedes a m ↔ b.requested a ≤ when) ∧
      ((b.accept m when ys).Precedes m a ↔ when < b.requested a) := by
  have hidx : (b.accepted ++ [m]).idxOf a < (b.accepted ++ [m]).idxOf m := by
    rw [List.idxOf_append_of_mem ha, List.idxOf_append_of_notMem hm]
    have := List.idxOf_lt_length_of_mem ha
    omega
  simp only [Precedes, requested_accept_self, requested_accept_of_ne (ne_of_mem_of_not_mem ha hm),
    accepted_accept]
  omega

end Accepted

theorem Precedes.le (h : b.Precedes a m) : b.requested a ≤ b.requested m := by
  rcases h with h | h
  · exact h.le
  · exact h.1.le

/-- A step from an ordered mailbox leads to an ordered one unless it accepts a message for which
    the two searches differ. -/
theorem Step.keeps_order_iff (hstep : Step w ok b c b') (hb : b.Sound) (ho : b.Ordered)
    (hnew : ∀ m when, c = .enqueueMessage m when → m ∉ b.accepted)
    (hwhen : ∀ m when, c = .enqueueMessage m when → when ≠ 0) :
    b'.Ordered ↔ ∀ m when, c = .enqueueMessage m when → ok m →
      firstLater w when b.linked = firstLater b.requested when b.linked := by
  have htail : ∀ {a xs}, b.linked = a :: xs → xs.Pairwise b.Precedes := by
    intro a xs hl
    rw [Ordered, hl, List.pairwise_cons] at ho
    exact ho.2
  cases hstep with
  | createMessage => simpa using ho
  | refused hno =>
    refine iff_of_true ho ?_
    rintro _ _ ⟨⟩ hok
    exact absurd hok hno
  | @accepted m when hok hfits =>
    have hm := hnew m when rfl
    have h0 := hwhen m when rfl
    have hsplit := before_append_behind w when b.linked
    have hmem : ∀ a ∈ before w when b.linked ++ behind w when b.linked, a ∈ b.accepted :=
      fun a ha => hb.linked_accepted a (hsplit ▸ ha)
    have hold : (before w when b.linked ++ behind w when b.linked).Pairwise
        (b.accept m when (before w when b.linked ++ m :: behind w when b.linked)).Precedes := by
      have ho' := ho
      rw [Ordered, ← hsplit] at ho'
      exact ho'.imp_of_mem fun ha hc h =>
        (precedes_accept_old (hmem _ ha) (hmem _ hc) hm).mpr h
    have hcond : (∀ m' when', Call.enqueueMessage m when = .enqueueMessage m' when' → ok m' →
        firstLater w when' b.linked = firstLater b.requested when' b.linked) ↔
        firstLater w when b.linked = firstLater b.requested when b.linked :=
      ⟨fun h => h m when rfl hok, by rintro h _ _ ⟨⟩ -; exact h⟩
    rw [hcond, ← boundary_iff h0 hb.linked_nodup hfits (ho.imp Precedes.le)]
    refine Iff.trans pairwise_insert ((and_iff_right hold).trans ?_)
    refine and_congr (forall₂_congr ?_) (forall₂_congr ?_)
    · intro a ha
      exact (precedes_accept_new (hmem a (List.mem_append_left _ ha)) hm).1
    · intro a ha
      exact (precedes_accept_new (hmem a (List.mem_append_right _ ha)) hm).2
  | dequeueAtHead hl => exact iff_of_true (htail hl) (by simp)
  | nextEmpty => simpa using ho
  | nextEarly hl => exact iff_of_true (htail hl) (by simp)
  | nextDue hl => exact iff_of_true (htail hl) (by simp)

end Mailbox

namespace History

variable {s : History} {mem : Heap (Link Message)} {mPoll : WakePipe}
  {tr : List (Taken History Call)}

/-- The linked messages are a list in the order of their requested times and their arrival. -/
def Ordered (s : History) : Prop :=
  ∃ xs, s.queue.mInboundQueue.Fwd xs ∧ (s.mailbox xs).Ordered

/-- The first linked message stamped later than `when` is the first one requested for later. -/
def StampsAgree (s : History) (when : ℤ) : Prop :=
  ∃ xs, s.queue.mInboundQueue.Fwd xs ∧ Mailbox.firstLater s.queue.stamp when xs =
    Mailbox.firstLater (s.mailbox xs).requested when xs

/-- In every run of `enqueueMessage` calls with new messages and non-zero times, mixed with
    removals from the head, the queue is ordered all along exactly when the stamps agree with the
    requested times at every accepted call. -/
theorem ordered_iff (hrun : Runs mem mPoll tr s) (hfresh : ∀ x ∈ tr, Fresh x)
    (hwhen : ∀ x ∈ tr, ∀ m when, x.act = .enqueueMessage m when → when ≠ 0) :
    (∀ x ∈ tr, x.post.Ordered) ↔
    ∀ x ∈ tr, ∀ m when, x.act = .enqueueMessage m when → x.pre.queue.target m ≠ none →
      x.pre.StampsAgree when := by
  refine hrun.forall_post_iff ⟨[], Queue.fwd_empty mem, List.Pairwise.nil⟩ ?_
  intro x hx hpre
  obtain ⟨xs, hq, hb⟩ := Orderly.of_run_pre hrun hfresh hx
  obtain ⟨_, hq', ho⟩ := hpre
  obtain rfl := hq.unique hq'
  obtain ⟨ys, hys, hbox⟩ := (hrun.step_of_mem hx).mailbox hq fun m when hact hm =>
    hfresh x hx m when hact (hb.linked_accepted m hm)
  have hpost : x.post.Ordered ↔ (x.post.mailbox ys).Ordered :=
    ⟨by rintro ⟨zs, hzs, h⟩; rwa [hys.unique hzs], fun h => ⟨ys, hys, h⟩⟩
  rw [hpost, hbox.keeps_order_iff hb ho (hfresh x hx) (hwhen x hx)]
  refine forall₂_congr fun m when => forall₂_congr ?_
  intro _ _
  exact ⟨fun h => ⟨xs, hq, h⟩, by rintro ⟨zs, hzs, h⟩; rwa [hq.unique hzs]⟩

/-- Requested times in the order of the stamps: the second message goes in front. -/
theorem ordered_run : ∃ tr s, Runs twoMessages pipe tr s ∧
    tr.map Taken.act = [.enqueueMessage 1 5, .enqueueMessage 0 1] ∧
    s.queue.mInboundQueue.Fwd [0, 1] ∧ ∀ x ∈ tr, x.post.Ordered := by
  have h₁ := Run.nil.snoc (Step.enqueueMessage (s := start twoMessages pipe) 1 5 ⟨1, rfl⟩)
  have h₂ := h₁.snoc (Step.enqueueMessage 0 1 ⟨1, rfl⟩)
  refine ⟨_, _, h₂, rfl, ⟨⟨rfl, _, rfl, rfl, _, rfl, rfl⟩, rfl⟩, (ordered_iff h₂ ?_ ?_).mpr ?_⟩
  · simp only [List.nil_append, List.cons_append, List.forall_mem_cons]
    refine ⟨?_, ?_, by simp⟩
    · rintro _ _ ⟨⟩
      decide
    · rintro _ _ ⟨⟩
      decide
  · simp only [List.nil_append, List.cons_append, List.forall_mem_cons]
    refine ⟨?_, ?_, by simp⟩
    · rintro _ _ ⟨⟩
      decide
    · rintro _ _ ⟨⟩
      decide
  · simp only [List.nil_append, List.cons_append, List.forall_mem_cons]
    refine ⟨?_, ?_, by simp⟩
    · rintro _ _ ⟨⟩ -
      exact ⟨[], ⟨rfl, rfl⟩, rfl⟩
    · rintro _ _ ⟨⟩ -
      exact ⟨[1], ⟨⟨rfl, _, rfl, rfl⟩, rfl⟩, by decide⟩

/-- Two messages stamped 100. -/
def sameStamp : Heap (Link Message) := fun a => [100, 100][a]?.map (Message.createMessage (some 0))

/-- The message requested for 50 is put in front of the one requested for 5, which is stamped 100. -/
theorem stamps_disorder : ∃ tr s, Runs sameStamp pipe tr s ∧
    tr.map Taken.act = [.enqueueMessage 0 5, .enqueueMessage 1 50] ∧
    s.queue.mInboundQueue.Fwd [1, 0] ∧ ¬∀ x ∈ tr, x.post.Ordered := by
  have h₁ := Run.nil.snoc (Step.enqueueMessage (s := start sameStamp pipe) 0 5 ⟨1, rfl⟩)
  have h₂ := h₁.snoc (Step.enqueueMessage 1 50 ⟨1, rfl⟩)
  refine ⟨_, _, h₂, rfl, ⟨⟨rfl, _, rfl, rfl, _, rfl, rfl⟩, rfl⟩, ?_⟩
  intro h
  obtain ⟨xs, hxs, ho⟩ := h _ (List.mem_append_right _ (List.mem_singleton_self _))
  obtain rfl : xs = [1, 0] := hxs.unique ⟨⟨rfl, _, rfl, rfl, _, rfl, rfl⟩, rfl⟩
  exact absurd (Mailbox.Precedes.le (List.rel_of_pairwise_cons ho List.mem_cons_self)) (by decide)

end History

end ThreadManager
