import ThreadManager.Message.History

/-! The queue as a mailbox: a list of pending messages, what was accepted, what was returned.

    `Mailbox.Step` is the message queue on lists. It has two parameters, the stamps (`w`) and which
    messages carry a target (`ok`). `Step.mailbox` is the simulation: as long as no message is
    enqueued that is linked already, every call of a history is a step of the mailbox. On the
    mailbox it is then decided when a message is lost and when the order is the requested one. -/

namespace ThreadManager
open Schemes

/-- What the queue holds and the record of a run, as lists; `linked` is in the order of the queue,
    the other two are oldest first. -/
structure Mailbox where
  linked : List Addr
  arrivals : List (Addr × ℤ)
  returned : List Addr

namespace Mailbox

/-- The accepted messages. -/
def accepted (b : Mailbox) : List Addr := b.arrivals.map Prod.fst

/-- One call, on lists. -/
inductive Step (w : Addr → ℤ) (ok : Addr → Prop) : Mailbox → Call → Mailbox → Prop
  | createMessage {b m g now} : Step w ok b (.createMessage m g now) b
  | refused {b m when} (hno : ¬ok m) : Step w ok b (.enqueueMessage m when) b
  | accepted {b m when} (hok : ok m) (hfits : Fits w when b.linked) :
      Step w ok b (.enqueueMessage m when) { b with
        linked := before w when b.linked ++ m :: behind w when b.linked
        arrivals := b.arrivals ++ [(m, when)] }
  | dequeueAtHead {b a xs} (hl : b.linked = a :: xs) :
      Step w ok b .dequeueAtHead { b with linked := xs }
  | nextEmpty {b now} (hl : b.linked = []) : Step w ok b (.next now) b
  | nextEarly {b a xs now} (hl : b.linked = a :: xs) (hlt : now < w a) :
      Step w ok b (.next now) { b with linked := xs }
  | nextDue {b a xs now} (hl : b.linked = a :: xs) (hle : w a ≤ now) :
      Step w ok b (.next now) { b with linked := xs, returned := b.returned ++ [a] }

/-- What holds when every message is enqueued once at most. -/
structure Sound (b : Mailbox) : Prop where
  linked_accepted : ∀ a ∈ b.linked, a ∈ b.accepted
  returned_accepted : ∀ a ∈ b.returned, a ∈ b.accepted
  accepted_nodup : b.accepted.Nodup
  nodup : (b.linked ++ b.returned).Nodup

variable {w : Addr → ℤ} {ok : Addr → Prop} {b b' : Mailbox} {c : Call} {m : Addr} {when now : ℤ}
  {l r xs : List Addr}

theorem Sound.linked_nodup (h : b.Sound) : b.linked.Nodup := h.nodup.of_append_left

/-- Taking the first message off keeps the mailbox sound. -/
theorem Sound.tail (h : b.Sound) {a : Addr} (hl : b.linked = a :: xs) :
    Sound { b with linked := xs } := by
  have hnd := h.nodup
  rw [hl, List.cons_append, List.nodup_cons] at hnd
  exact ⟨fun x hx => h.linked_accepted x (hl ▸ List.mem_cons_of_mem _ hx), h.returned_accepted,
    h.accepted_nodup, hnd.2⟩

theorem Sound.step (h : b.Sound) (hstep : Step w ok b c b')
    (hnew : ∀ m when, c = .enqueueMessage m when → m ∉ b.accepted) : b'.Sound := by
  cases hstep with
  | createMessage => exact h
  | refused => exact h
  | @accepted m when =>
    have hm : m ∉ b.accepted := hnew m when rfl
    have hperm := insert_perm w when b.linked m
    have hacc : (b.arrivals ++ [(m, when)]).map Prod.fst = b.accepted ++ [m] := by simp [accepted]
    refine ⟨?_, ?_, ?_, ?_⟩
    · intro a ha
      rw [accepted, hacc, List.mem_append, List.mem_singleton]
      rcases List.mem_cons.mp (hperm.mem_iff.mp ha) with rfl | ha
      · exact Or.inr rfl
      · exact Or.inl (h.linked_accepted a ha)
    · intro a ha
      rw [accepted, hacc, List.mem_append]
      exact Or.inl (h.returned_accepted a ha)
    · rw [accepted, hacc, ← List.concat_eq_append]
      exact h.accepted_nodup.concat hm
    · rw [(hperm.append_right _).nodup_iff, List.cons_append, List.nodup_cons, List.mem_append]
      refine ⟨?_, h.nodup⟩
      rintro (ha | ha)
      · exact hm (h.linked_accepted m ha)
      · exact hm (h.returned_accepted m ha)
  | dequeueAtHead hl => exact h.tail hl
  | nextEmpty => exact h
  | nextEarly hl => exact h.tail hl
  | @nextDue a xs now hl hle =>
    have hperm : (xs ++ (b.returned ++ [a])).Perm (b.linked ++ b.returned) := by
      rw [hl, ← List.append_assoc]
      exact List.perm_append_singleton a _
    refine ⟨fun x hx => h.linked_accepted x (hl ▸ List.mem_cons_of_mem _ hx), ?_,
      h.accepted_nodup, hperm.nodup_iff.mpr h.nodup⟩
    intro x hx
    rcases List.mem_append.mp hx with hx | hx
    · exact h.returned_accepted x hx
    · rw [List.mem_singleton] at hx
      exact h.linked_accepted x (by rw [hl, hx]; exact List.mem_cons_self)

/-! ### Nothing is lost -/

/-- Every accepted message is still linked or was returned. -/
def Kept (b : Mailbox) : Prop := ∀ a ∈ b.accepted, a ∈ b.linked ∨ a ∈ b.returned

/-- A step of `enqueueMessage` or `next` keeps every message exactly unless `next` meets a head
    that is not due. -/
theorem Step.kept_iff (hstep : Step w ok b c b') (hb : b.Sound) (hk : b.Kept)
    (hnew : ∀ m when, c = .enqueueMessage m when → m ∉ b.accepted) (hc : c ≠ .dequeueAtHead) :
    b'.Kept ↔ ∀ now a, c = .next now → b.linked.head? = some a → w a ≤ now := by
  cases hstep with
  | createMessage => simpa using hk
  | refused => simpa using hk
  | @accepted m when =>
    refine iff_of_true ?_ (by simp)
    intro a ha
    have hperm := insert_perm w when b.linked m
    simp only [Mailbox.accepted, List.map_append, List.mem_append, List.map_cons, List.map_nil,
      List.mem_singleton] at ha
    rcases ha with ha | rfl
    · exact (hk a ha).imp_left fun hl => hperm.mem_iff.mpr (List.mem_cons_of_mem _ hl)
    · exact Or.inl (hperm.mem_iff.mpr List.mem_cons_self)
  | dequeueAtHead => exact absurd rfl hc
  | nextEmpty hl => simpa [hl] using hk
  | @nextEarly a xs now hl hlt =>
    -- the head is in neither place any more
    have hnd := hb.nodup
    rw [hl, List.cons_append, List.nodup_cons, List.mem_append] at hnd
    refine iff_of_false ?_ ?_
    · intro hk'
      exact hnd.1 (hk' a (hb.linked_accepted a (by rw [hl]; exact List.mem_cons_self)))
    · intro h
      exact absurd (h now a rfl (by rw [hl]; rfl)) (not_le.mpr hlt)
  | @nextDue a xs now hl hle =>
    refine iff_of_true ?_ ?_
    · intro x hx
      rcases hk x hx with hx | hx
      · rw [hl, List.mem_cons] at hx
        rcases hx with rfl | hx
        · exact Or.inr (by simp)
        · exact Or.inl hx
      · exact Or.inr (List.mem_append_left _ hx)
    · rintro _ x ⟨⟩ hx
      rw [hl, List.head?_cons, Option.some.injEq] at hx
      exact hx ▸ hle

/-! ### Who comes first -/

/-- The message a step returns is the first one. -/
theorem Step.returned_head {d : Addr} (hstep : Step w ok b c b')
    (hret : b'.returned = b.returned ++ [d]) : b.linked.head? = some d := by
  cases hstep with
  | nextDue hl =>
    simp only [List.append_cancel_left_eq, List.cons.injEq, and_true] at hret
    rw [hl, List.head?_cons, hret]
  | _ => simp at hret

/-- As long as `next` finds `a` due, `a` is returned or stays in front of `d`. -/
theorem Step.ahead {a d : Addr} (hstep : Step w ok b c b')
    (h : a ∈ b.returned ∨ [a, d].Sublist b.linked) (hc : c ≠ .dequeueAtHead)
    (hdue : ∀ now, c = .next now → w a ≤ now) :
    a ∈ b'.returned ∨ [a, d].Sublist b'.linked := by
  cases hstep with
  | createMessage => exact h
  | refused => exact h
  | @accepted m when hok hfits =>
    refine h.imp_right ?_
    intro hs
    rw [← before_append_behind w when b.linked] at hs
    exact hs.trans ((List.sublist_cons_self _ _).append_left _)
  | dequeueAtHead => exact absurd rfl hc
  | nextEmpty => exact h
  | @nextEarly x xs now hl hlt =>
    refine h.imp_right ?_
    intro hs
    rw [hl] at hs
    rcases List.sublist_cons_iff.mp hs with hs | ⟨_, he, -⟩
    · exact hs
    · -- `a` itself cannot be early
      obtain ⟨rfl, -⟩ := List.cons.inj he
      exact absurd (hdue now rfl) (not_le.mpr hlt)
  | @nextDue x xs now hl hle =>
    rcases h with h | hs
    · exact Or.inl (List.mem_append_left _ h)
    · rw [hl] at hs
      rcases List.sublist_cons_iff.mp hs with hs | ⟨_, he, -⟩
      · exact Or.inr hs
      · obtain ⟨rfl, -⟩ := List.cons.inj he
        exact Or.inl (by simp)

end Mailbox

namespace History

variable {s t : History} {c : Call} {m : Addr} {when now : ℤ} {xs : List Addr}
  {mem : Heap (Link Message)} {mPoll : WakePipe} {tr : List (Taken History Call)}

/-- The mailbox of a history in which `xs` is linked. -/
def mailbox (s : History) (xs : List Addr) : Mailbox := ⟨xs, s.arrivals, s.returned⟩

/-- An accepted call that completes found a place, and put the message there. -/
theorem Step.enqueued (h : Step s (.enqueueMessage m when) t) (ht : s.queue.target m ≠ none)
    (hq : s.queue.mInboundQueue.Fwd xs) (hm : m ∉ xs) :
    Fits s.queue.stamp when xs ∧ t.queue.mInboundQueue.Fwd
      (before s.queue.stamp when xs ++ m :: behind s.queue.stamp when xs) := by
  rcases h.enqueueMessage_cases with ⟨hno, -⟩ | ⟨-, hdone, -⟩
  · exact absurd hno ht
  · obtain ⟨hfits, hfwd, -⟩ :=
      Queue.enqueueAtTimeOut_completes hq hm (MessageQueue.live_of_target ht) hdone
    exact ⟨hfits, hfwd⟩

/-- Every call is a step of the mailbox, as long as a message that is linked is not enqueued. -/
theorem Step.mailbox (h : Step s c t) (hq : s.queue.mInboundQueue.Fwd xs)
    (hnew : ∀ m when, c = .enqueueMessage m when → m ∉ xs) :
    ∃ ys, t.queue.mInboundQueue.Fwd ys ∧
      Mailbox.Step s.queue.stamp (fun m => s.queue.target m ≠ none) (s.mailbox xs) c
        (t.mailbox ys) := by
  cases c with
  | createMessage m g now =>
    cases h with
    | createMessage _ _ _ hdead => exact ⟨xs, MessageQueue.newMessage_fwd hdead hq, .createMessage⟩
  | enqueueMessage m when =>
    rcases h.enqueueMessage_cases with ⟨ht, rfl⟩ | ⟨ht, -, harr, hret⟩
    · exact ⟨xs, hq, .refused (not_not.mpr ht)⟩
    · obtain ⟨hfits, hfwd⟩ := h.enqueued ht hq (hnew m when rfl)
      refine ⟨_, hfwd, ?_⟩
      simp only [History.mailbox, harr, hret]
      exact .accepted ht hfits
  | dequeueAtHead =>
    cases h with
    | dequeueAtHead hrun =>
      cases xs with
      | nil => rw [Queue.dequeueAtHead_nil hq.head] at hrun; cases hrun
      | cons a xs =>
        obtain ⟨q', hq', hfwd, -⟩ := Queue.dequeueAtHead_fwd hq
        rw [hrun, Outcome.done.injEq, Prod.mk.injEq] at hq'
        exact ⟨xs, hq'.2 ▸ hfwd, .dequeueAtHead rfl⟩
  | next now =>
    cases h with
    | next _ hrun =>
      cases xs with
      | nil =>
        rw [MessageQueue.nextLocked_nil hq.head, Outcome.done.injEq, Prod.mk.injEq] at hrun
        obtain ⟨rfl, rfl⟩ := hrun
        exact ⟨[], hq, by simpa [NextResult.returned] using .nextEmpty rfl⟩
      | cons a xs =>
        obtain ⟨q', hq', hfwd, -⟩ := MessageQueue.nextLocked_fwd now hq
        rw [hrun, Outcome.done.injEq, Prod.mk.injEq] at hq'
        obtain ⟨rfl, rfl⟩ := hq'
        refine ⟨xs, hfwd, ?_⟩
        rcases lt_or_ge now (s.queue.stamp a) with hlt | hge
        · simpa [NextResult.returned, hlt] using .nextEarly rfl hlt
        · simpa [NextResult.returned, not_lt.mpr hge] using .nextDue rfl hge

/-- The message passed to `enqueueMessage` was not accepted before. -/
def Fresh (x : Taken History Call) : Prop :=
  ∀ m when, x.act = .enqueueMessage m when → ¬x.pre.Accepted m

/-- The queue is a list and its mailbox is sound. -/
def Orderly (s : History) : Prop :=
  ∃ xs, s.queue.mInboundQueue.Fwd xs ∧ (s.mailbox xs).Sound

theorem orderly_start : (start mem mPoll).Orderly :=
  ⟨[], Queue.fwd_empty mem, ⟨by simp [mailbox], by simp [mailbox, start], List.nodup_nil,
    List.nodup_nil⟩⟩

theorem Orderly.step (h : s.Orderly) (hstep : Step s c t)
    (hfresh : ∀ m when, c = .enqueueMessage m when → ¬s.Accepted m) : t.Orderly := by
  obtain ⟨xs, hq, hb⟩ := h
  obtain ⟨ys, hys, hbox⟩ := hstep.mailbox hq fun m when hact hm =>
    hfresh m when hact (hb.linked_accepted m hm)
  exact ⟨ys, hys, hb.step hbox hfresh⟩

/-- If every message is enqueued once at most, the queue is a list all along. -/
theorem Orderly.of_run (hrun : Runs mem mPoll tr s) (hfresh : ∀ x ∈ tr, Fresh x) : s.Orderly :=
  hrun.invariant orderly_start fun x hx hstep h => h.step hstep (hfresh x hx)

theorem Orderly.of_run_pre (hrun : Runs mem mPoll tr s) (hfresh : ∀ x ∈ tr, Fresh x)
    {x : Taken History Call} (hx : x ∈ tr) : x.pre.Orderly :=
  hrun.invariant_pre orderly_start (fun y hy hstep h => h.step hstep (hfresh y hy)) hx

/-- Every accepted message is either linked or was returned. -/
def NoneLost (s : History) : Prop := ∀ m, s.Accepted m → Xor (s.Linked m) (m ∈ s.returned)

theorem noneLost_iff (hq : s.queue.mInboundQueue.Fwd xs) (hb : (s.mailbox xs).Sound) :
    s.NoneLost ↔ (s.mailbox xs).Kept := by
  have hdisj := List.disjoint_of_nodup_append hb.nodup
  refine forall₂_congr ?_
  intro m _
  rw [Linked, hq.linked_iff]
  constructor
  · rintro (⟨hl, -⟩ | ⟨hr, -⟩)
    · exact Or.inl hl
    · exact Or.inr hr
  · rintro (hl | hr)
    · exact Or.inl ⟨hl, fun hr => hdisj hl hr⟩
    · exact Or.inr ⟨hr, fun hl => hdisj hl hr⟩

/-- In every run of `enqueueMessage` calls with new messages and rounds of `next`, no message is
    ever lost exactly when `next` never meets a head that is not due. -/
theorem none_lost_iff (hrun : Runs mem mPoll tr s) (hfresh : ∀ x ∈ tr, Fresh x)
    (hnext : ∀ x ∈ tr, x.act ≠ .dequeueAtHead) :
    (∀ x ∈ tr, x.post.NoneLost) ↔
    ∀ x ∈ tr, ∀ now a, x.act = .next now → x.pre.queue.mInboundQueue.head = some a →
      x.pre.queue.stamp a ≤ now := by
  refine hrun.forall_post_iff (by simp [NoneLost, Accepted, start]) ?_
  intro x hx hpre
  obtain ⟨xs, hq, hb⟩ := Orderly.of_run_pre hrun hfresh hx
  have hstep := hrun.step_of_mem hx
  obtain ⟨ys, hys, hbox⟩ := hstep.mailbox hq fun m when hact hm =>
    hfresh x hx m when hact (hb.linked_accepted m hm)
  rw [noneLost_iff hys (hb.step hbox (hfresh x hx)),
    hbox.kept_iff hb ((noneLost_iff hq hb).mp hpre) (hfresh x hx) (hnext x hx), hq.head]
  rfl

/-- A message is returned at its stamp and a second one stays linked. -/
theorem none_lost_run : ∃ tr s, Runs twoMessages pipe tr s ∧
    tr.map Taken.act = [.enqueueMessage 1 5, .enqueueMessage 0 1, .next 1] ∧
    s.returned = [0] ∧ ∀ x ∈ tr, x.post.NoneLost := by
  have h₁ := Run.nil.snoc (Step.enqueueMessage (s := start twoMessages pipe) 1 5 ⟨1, rfl⟩)
  have h₂ := h₁.snoc (Step.enqueueMessage 0 1 ⟨1, rfl⟩)
  have h₃ := h₂.snoc (Step.next 1 rfl)
  refine ⟨_, _, h₃, rfl, rfl, (none_lost_iff h₃ ?_ (by simp)).mpr ?_⟩
  · simp only [List.nil_append, List.cons_append, List.forall_mem_cons]
    refine ⟨?_, ?_, ?_, by simp⟩
    · rintro _ _ ⟨⟩
      decide
    · rintro _ _ ⟨⟩
      decide
    · rintro _ _ ⟨⟩
  · simp only [List.nil_append, List.cons_append, List.forall_mem_cons]
    refine ⟨?_, ?_, ?_, by simp⟩
    · rintro _ _ ⟨⟩
    · rintro _ _ ⟨⟩
    · rintro _ _ ⟨⟩ ⟨⟩
      decide

/-- A message that is not due when `next` looks at it is neither linked nor returned afterwards. -/
theorem next_loses_early : ∃ tr s, Runs twoMessages pipe tr s ∧
    tr.map Taken.act = [.enqueueMessage 0 1, .next 0] ∧ s.Accepted 0 ∧ ¬s.Linked 0 ∧
    s.returned = [] ∧ ¬∀ x ∈ tr, x.post.NoneLost := by
  have h₁ := Run.nil.snoc (Step.enqueueMessage (s := start twoMessages pipe) 0 1 ⟨1, rfl⟩)
  have h₂ := h₁.snoc (Step.next 0 rfl)
  refine ⟨_, _, h₂, rfl, by decide, Reach.not_none, rfl, ?_⟩
  intro h
  rcases h _ (List.mem_append_right _ (List.mem_singleton_self _)) 0 (by decide) with
    ⟨hl, -⟩ | ⟨hr, -⟩
  · exact Reach.not_none hl
  · cases hr

end History

end ThreadManager
