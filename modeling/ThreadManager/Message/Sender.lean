import ThreadManager.Message.Mailbox

/-! Sending: `NativeTManager::sendMsg` down to `enqueueMessage`, with the widths of the conversions.

    The clock reading of the sender is a 64 bit number of nanoseconds; `sendMessage` takes it as an
    `int32_t`, `publishMessage` as a `nsecs_t` and `enqueueMessage` as a `long`. Two sends are in
    order in the queue exactly when the narrowed reading of the second one is not 0 and not before
    the stamp of a message at or in front of the first. -/

namespace ThreadManager
open Schemes

/-- The ABIs of the build: they differ in the width of `long`. -/
inductive Abi where
  | ilp32
  | lp64
  deriving DecidableEq, Repr

/-- The width of `long`. -/
def Abi.longWidth : Abi → ℕ
  | .ilp32 => 32
  | .lp64 => 64

/-- A `long` keeps every `int32_t`. -/
theorem Abi.signed_longWidth (abi : Abi) (x : ℤ) :
    signed abi.longWidth (signed 32 x) = signed 32 x :=
  signed_signed_of_le (by cases abi <;> decide)

/-- A `MessageHandler`: its identity, and whether `mPublisher` is set. The queue it publishes to is
    an argument of its methods. -/
structure MessageHandler where
  this : Target
  mPublisher : Bool
  deriving DecidableEq, Repr

namespace MessageHandler

/-- The constructor with a queue, which makes the publisher. -/
def new (this : Target) : MessageHandler := ⟨this, true⟩

/-- `MessagePublisher::publishMessage`; `when` becomes a `long` at the call. -/
def publishMessage (abi : Abi) (fuel : ℕ) (mQueue : MessageQueue) (msg : Addr) (when : ℤ) :
    Outcome Fault (Bool × MessageQueue) :=
  mQueue.enqueueMessage fuel (some msg) (signed abi.longWidth when)

/-- `sendMessage`; `when` is an `int32_t`, whatever the caller has. -/
def sendMessage (abi : Abi) (fuel : ℕ) (h : MessageHandler) (mQueue : MessageQueue) (msg : Addr)
    (when : ℤ) : Outcome Fault (Bool × MessageQueue) :=
  if h.mPublisher then publishMessage abi fuel mQueue msg (signed 32 when)
  else return (false, mQueue)

/-- `obtainMessage`, at the clock reading `now`. -/
def obtainMessage (h : MessageHandler) (mQueue : MessageQueue) (m : Addr) (now : ℤ) :
    MessageQueue :=
  mQueue.newMessage m (some h.this) now

/-- `NativeTManager::sendMsg`: the stamp is the reading `t`, the argument the reading `w`. -/
def sendMsg (abi : Abi) (fuel : ℕ) (mh : MessageHandler) (mQueue : MessageQueue) (m : Addr)
    (t w : ℤ) : Outcome Fault (Bool × MessageQueue) :=
  mh.sendMessage abi fuel (mh.obtainMessage mQueue m t) m w

/-- A handler made with a queue enqueues the narrowed reading, on either ABI. -/
theorem sendMsg_new (abi : Abi) (fuel : ℕ) (this : Target) (s : MessageQueue) (m : Addr) (t w : ℤ) :
    (new this).sendMsg abi fuel s m t w =
      (s.newMessage m (some this) t).enqueueMessage fuel (some m) (signed 32 w) := by
  simp only [sendMsg, sendMessage, new, if_true, publishMessage, abi.signed_longWidth, obtainMessage]

end MessageHandler

namespace History

/-- A `sendMsg` call on a handler made with a queue, with `m` as the new message. -/
inductive SendMsg (abi : Abi) (this : Target) (s : History) (m : Addr) (t w : ℤ) : History → Prop
  | intro {b q'} (hnew : s.queue.mem m = none)
      (hrun : Completes (fun n => (MessageHandler.new this).sendMsg abi n s.queue m t w) (b, q')) :
      SendMsg abi this s m t w
        { s with queue := q', arrivals := s.arrivals ++ [(m, signed 32 w)] }

variable {abi : Abi} {this : Target} {s s' : History} {m a b : Addr} {t w : ℤ} {xs l r : List Addr}

/-- A send is the making of a message and its `enqueueMessage`. -/
theorem SendMsg.steps (h : SendMsg abi this s m t w s') :
    s.queue.mem m = none ∧ Step { s with queue := s.queue.newMessage m (some this) t }
      (.enqueueMessage m (signed 32 w)) s' := by
  cases h with
  | intro hnew hrun =>
    simp only [MessageHandler.sendMsg_new] at hrun
    have ht : (s.queue.newMessage m (some this) t).target m ≠ none := by
      simp [MessageQueue.newMessage, MessageQueue.target, MessageQueue.mem, Heap.alloc_same]
    have hstep := Step.enqueueMessage (s := { s with queue := s.queue.newMessage m (some this) t })
      m (signed 32 w) hrun
    simp only [if_neg ht] at hstep
    exact ⟨hnew, hstep⟩

/-- `a` stands in front of `b` in the queue. -/
def Ahead (s : History) (a b : Addr) : Prop :=
  ∃ xs, s.queue.mInboundQueue.Fwd xs ∧ [a, b].Sublist xs

theorem pair_sublist_iff (hnd : (l ++ b :: r).Nodup) : [a, b].Sublist (l ++ b :: r) ↔ a ∈ l := by
  have hb : b ∉ l ∧ b ∉ r := by
    rw [List.nodup_append, List.nodup_cons] at hnd
    exact ⟨fun hl => hnd.2.2 b hl b List.mem_cons_self rfl, hnd.2.1.1⟩
  constructor
  · intro hs
    obtain ⟨l₁, l₂, hsplit, h₁, h₂⟩ := List.sublist_append_iff.mp hs
    rcases l₁ with _ | ⟨c, _ | ⟨d, l₁⟩⟩
    · -- both in the second part: `b` would stand there twice
      simp only [List.nil_append] at hsplit
      subst hsplit
      exact absurd (h₂.tail.subset (by simp)) hb.2
    · obtain ⟨rfl, -⟩ := List.cons.inj hsplit
      exact h₁.subset (by simp)
    · simp only [List.cons_append, List.cons.injEq] at hsplit
      obtain ⟨rfl, rfl, -⟩ := hsplit
      exact absurd (h₁.subset (by simp)) hb.1
  · intro ha
    exact (List.singleton_sublist.mpr ha).append (List.singleton_sublist.mpr List.mem_cons_self)

theorem ahead_iff (hq : s.queue.mInboundQueue.Fwd (l ++ b :: r)) : s.Ahead a b ↔ a ∈ l := by
  rw [← pair_sublist_iff hq.nodup]
  exact ⟨by rintro ⟨ys, hys, h⟩; rwa [hq.unique hys], fun h => ⟨_, hq, h⟩⟩

/-- What a send leaves: a new accepted message with its stamp, put where its narrowed reading
    belongs. -/
theorem SendMsg.sends (h : SendMsg abi this s m t w s') (hc : s.Closed) (ho : s.Orderly) :
    s'.Closed ∧ s'.Orderly ∧ s'.Accepted m ∧ s'.queue.stamp m = t ∧
    (∀ a, s.Accepted a → s'.Accepted a ∧ s'.queue.stamp a = s.queue.stamp a) ∧
    ∀ xs, s.queue.mInboundQueue.Fwd xs → s'.queue.mInboundQueue.Fwd
      (before s.queue.stamp (signed 32 w) xs ++ m :: behind s.queue.stamp (signed 32 w) xs) := by
  obtain ⟨hnew, hstep⟩ := h.steps
  have hmake := Step.createMessage (s := s) m (some this) t hnew
  have hfresh : ¬s.Accepted m := fun ha => by simpa [hnew] using hc.live ha
  have hkeep := hc.run ((Run.nil.snoc hmake).snoc hstep)
  have ho₁ := ho.step hmake (by rintro _ _ ⟨⟩)
  have ht : (s.queue.newMessage m (some this) t).target m ≠ none := by
    simp [MessageQueue.newMessage, MessageQueue.target, MessageQueue.mem, Heap.alloc_same]
  refine ⟨hkeep.1, ho₁.step hstep (by rintro _ _ ⟨⟩; exact hfresh), ?_, ?_, hkeep.2,
    ?_⟩
  · cases h with
    | intro => simp [Accepted]
  · rw [hstep.stamp (MessageQueue.live_of_target ht)]
    simp only [MessageQueue.newMessage, MessageQueue.stamp, MessageQueue.mem]
    rw [stamp_some Heap.alloc_same, Message.getWhen_createMessage]
  · intro xs hq
    have hm : m ∉ xs := fun hm => by
      have hlive := hq.live hm
      rw [show s.queue.mInboundQueue.mem m = none from hnew] at hlive
      cases hlive
    have hstamp : ∀ x ∈ xs, (s.queue.newMessage m (some this) t).stamp x = s.queue.stamp x :=
      fun x hx => hmake.stamp (hq.live hx)
    rw [← (place_congr hstamp).1, ← (place_congr hstamp).2]
    exact (hstep.enqueued ht (MessageQueue.newMessage_fwd hnew hq) hm).2

/-- As long as no clock reading is before the stamp of `a`, a message behind `a` is only returned
    after `a`. -/
theorem returned_first {s₀ : History} {tr : List (Taken History Call)} (hc : s₀.Closed)
    (ho : s₀.Orderly) (hacc : s₀.Accepted a) (hahead : s₀.Ahead a b) (hrun : Run Step s₀ tr s)
    (h : ∀ x ∈ tr, Fresh x ∧ x.act ≠ .dequeueAtHead ∧
      ∀ now, x.act = .next now → s₀.queue.stamp a ≤ now) :
    ∀ x ∈ tr, x.post.returned = x.pre.returned ++ [b] → a ∈ x.pre.returned := by
  have hinv : ∀ x ∈ tr, x.pre.Orderly ∧ (a ∈ x.pre.returned ∨ x.pre.Ahead a b) := by
    intro x hx
    refine hrun.invariant_pre (I := fun y => y.Orderly ∧ (a ∈ y.returned ∨ y.Ahead a b))
      ⟨ho, Or.inr hahead⟩ (fun y hy hstep ⟨hoy, hay⟩ => ?_) hx
    obtain ⟨hfresh, hne, hdue⟩ := h y hy
    obtain ⟨_, hrun', -⟩ := hrun.before hy |>.2
    obtain ⟨xs, hq, hb⟩ := id hoy
    obtain ⟨ys, hys, hbox⟩ := hstep.mailbox hq fun m when hact hm =>
      hfresh m when hact (hb.linked_accepted m hm)
    refine ⟨hoy.step hstep hfresh, ?_⟩
    have hay' : a ∈ (y.pre.mailbox xs).returned ∨ [a, b].Sublist (y.pre.mailbox xs).linked :=
      hay.imp_right (by rintro ⟨zs, hzs, hs⟩; rwa [hq.unique hzs])
    refine (hbox.ahead hay' hne ?_).imp_right fun hs => ⟨ys, hys, hs⟩
    intro now hact
    rw [((hc.run hrun').2 a hacc).2]
    exact hdue now hact
  intro x hx hret
  obtain ⟨⟨xs, hq, hb⟩, hax⟩ := hinv x hx
  obtain ⟨ys, -, hbox⟩ := (hrun.step_of_mem hx).mailbox hq fun m when hact hm =>
    (h x hx).1 m when hact (hb.linked_accepted m hm)
  refine hax.resolve_right ?_
  intro hfront
  obtain ⟨zs, rfl⟩ := List.head?_eq_some_iff.mp (hbox.returned_head hret)
  exact absurd ((ahead_iff (l := []) hq).mp hfront) List.not_mem_nil

/-- Two sends, one after the other, with the first message still linked: the second message stands
    behind it, and so is returned after it by every later `next` on a clock that does not go back,
    exactly when its narrowed reading is not 0 and no message at or in front of the first is
    stamped later than it. -/
theorem first_sent_first_iff {mem : Heap (Link Message)} {mPoll : WakePipe} {this₁ this₂ : Target}
    {s₁ s₂ s₃ s₄ : History} {tr₁ tr₂ : List (Taken History Call)} {m₁ m₂ : Addr} {t₁ w₁ t₂ w₂ : ℤ}
    (hrun₁ : Runs mem mPoll tr₁ s₁) (hsend₁ : SendMsg abi this₁ s₁ m₁ t₁ w₁ s₂)
    (hrun₂ : Run Step s₂ tr₂ s₃) (hsend₂ : SendMsg abi this₂ s₃ m₂ t₂ w₂ s₄)
    (hfresh : ∀ x ∈ tr₁ ++ tr₂, Fresh x) (hclock : t₁ ≤ w₂) (hin : s₃.Linked m₁) :
    (s₄.Ahead m₁ m₂ ∧ ∀ tr s, Run Step s₄ tr s →
        (∀ x ∈ tr, Fresh x ∧ x.act ≠ .dequeueAtHead ∧ ∀ now, x.act = .next now → w₂ ≤ now) →
        ∀ x ∈ tr, x.post.returned = x.pre.returned ++ [m₂] → m₁ ∈ x.pre.returned) ↔
      signed 32 w₂ ≠ 0 ∧ ∀ a, a = m₁ ∨ s₃.Ahead a m₁ → s₃.queue.stamp a ≤ signed 32 w₂ := by
  rw [List.forall_mem_append] at hfresh
  obtain ⟨hc₂, ho₂, hacc₂, hstamp₂, -⟩ :=
    hsend₁.sends (Closed.of_run hrun₁) (Orderly.of_run hrun₁ hfresh.1)
  obtain ⟨hc₃, hkeep₃⟩ := hc₂.run hrun₂
  obtain ⟨hacc₃, hstamp₃⟩ := hkeep₃ m₁ hacc₂
  have ho₃ : s₃.Orderly := hrun₂.invariant ho₂ fun x hx hstep h => h.step hstep (hfresh.2 x hx)
  obtain ⟨hc₄, ho₄, -, -, hkeep₄, hfwd₄⟩ := hsend₂.sends hc₃ ho₃
  obtain ⟨hacc₄, hstamp₄⟩ := hkeep₄ m₁ hacc₃
  obtain ⟨xs, hq, -⟩ := ho₃
  obtain ⟨l, r, rfl⟩ := List.append_of_mem (hq.linked_iff.mp hin)
  have hplace : s₄.Ahead m₁ m₂ ↔
      signed 32 w₂ ≠ 0 ∧ ∀ a, a = m₁ ∨ s₃.Ahead a m₁ → s₃.queue.stamp a ≤ signed 32 w₂ := by
    rw [ahead_iff (hfwd₄ _ hq), mem_before_iff hq.nodup]
    simp only [ahead_iff hq, List.mem_append, List.mem_singleton, or_comm]
  rw [← hplace]
  refine and_iff_left_of_imp ?_
  intro hahead tr s hrun h
  refine returned_first hc₄ ho₄ hacc₄ hahead hrun ?_
  intro x hx
  obtain ⟨hfr, hne, hnow⟩ := h x hx
  refine ⟨hfr, hne, ?_⟩
  intro now hact
  rw [hstamp₄, hstamp₃, hstamp₂]
  exact hclock.trans (hnow now hact)

/-- One message, stamped 10. -/
def oneLate : Heap (Link Message) := fun a => [10][a]?.map (Message.createMessage (some 0))

/-- Behind a first message stamped 10, sends at 1 and at 2 stay in order. -/
theorem first_sent_first_run : ∃ tr s₁ s₂ s₄, Runs oneLate pipe tr s₁ ∧
    SendMsg .lp64 0 s₁ 1 1 1 s₂ ∧ SendMsg .lp64 0 s₂ 2 2 2 s₄ ∧
    s₄.queue.mInboundQueue.Fwd [1, 2, 0] ∧ s₄.Ahead 1 2 := by
  have h₁ := Run.nil.snoc (Step.enqueueMessage (s := start oneLate pipe) 0 5 ⟨1, rfl⟩)
  refine ⟨_, _, _, _, h₁, .intro rfl ⟨2, rfl⟩, .intro rfl ⟨3, rfl⟩,
    ⟨⟨rfl, _, rfl, rfl, _, rfl, rfl, _, rfl, rfl⟩, rfl⟩, ?_⟩
  refine ((first_sent_first_iff h₁
    (by show SendMsg .lp64 0 _ 1 1 1 _; exact .intro rfl ⟨2, rfl⟩) .nil
    (by show SendMsg .lp64 0 _ 2 2 2 _; exact .intro rfl ⟨3, rfl⟩) ?_ (by decide) ?_).mpr ?_).1
  · simp only [List.nil_append, List.append_nil, List.forall_mem_cons]
    refine ⟨?_, by simp⟩
    rintro _ _ ⟨⟩
    decide
  · exact (Queue.Fwd.linked_iff (show Queue.Fwd _ [1, 0] from
      ⟨⟨rfl, _, rfl, rfl, _, rfl, rfl⟩, rfl⟩)).mpr (by decide)
  · refine ⟨by decide, ?_⟩
    rintro a (rfl | ha)
    · decide
    · rw [ahead_iff (l := []) (r := [0]) ⟨⟨rfl, _, rfl, rfl, _, rfl, rfl⟩, rfl⟩] at ha
      cases ha

/-- With the clock at 3 seconds the narrowed reading is negative: the second message goes to the
    head. -/
theorem second_sent_first : ∃ s₂ s₄, SendMsg .lp64 0 (start (fun _ => none) pipe) 0 3000000000
      3000000000 s₂ ∧ SendMsg .lp64 0 s₂ 1 3000001000 3000001000 s₄ ∧ s₂.Linked 0 ∧
    s₄.queue.mInboundQueue.Fwd [1, 0] ∧ ¬s₄.Ahead 0 1 := by
  have h₁ : SendMsg .lp64 0 (start (fun _ => none) pipe) 0 3000000000 3000000000 _ :=
    .intro rfl ⟨1, rfl⟩
  refine ⟨_, _, h₁, .intro rfl ⟨1, rfl⟩, ?_, ⟨⟨rfl, _, rfl, rfl, _, rfl, rfl⟩, rfl⟩, ?_⟩
  · exact (Queue.Fwd.linked_iff (show Queue.Fwd _ [0] from ⟨⟨rfl, _, rfl, rfl⟩, rfl⟩)).mpr
      (by decide)
  · exact (ahead_iff (l := []) (r := [0]) ⟨⟨rfl, _, rfl, rfl, _, rfl, rfl⟩, rfl⟩).not.mpr
      (by decide)

end History

end ThreadManager
