import ThreadManager.Schemes.Transition
import ThreadManager.Message.MessageQueue

/-! Runs of a message queue: which calls complete, and when a message is due.

    A history is the queue together with the record of what went in and what came out of it. A run
    may contain any calls in any order, with any message (linked, returned or new), any `when` and
    any clock readings. What holds of all of them is `Closed`: whatever is reached from the head is
    an accepted message that is still alive. -/

namespace ThreadManager
open Schemes

/-- The calls of a run: a message is made, `enqueueMessage` returns, the head is taken off, or
    `next` goes through its section under `mLock` at a clock reading. -/
inductive Call where
  | createMessage (m : Addr) (target : Option Target) (now : ℤ)
  | enqueueMessage (m : Addr) (when : ℤ)
  | dequeueAtHead
  | next (now : ℤ)
  deriving DecidableEq, Repr

/-- The message a round of `next` returns. -/
def NextResult.returned : NextResult → List Addr
  | .message msg => [msg]
  | .again _ => []

/-- A queue, the accepted calls of `enqueueMessage` and the messages `next` returned, oldest
    first. -/
structure History where
  queue : MessageQueue
  arrivals : List (Addr × ℤ)
  returned : List Addr

namespace History

/-- Nothing was sent yet, over the objects of `mem`. -/
def start (mem : Heap (Link Message)) (mPoll : WakePipe) : History := ⟨.init mem mPoll, [], []⟩

/-- `enqueueMessage` accepted `m`. -/
def Accepted (s : History) (m : Addr) : Prop := m ∈ s.arrivals.map Prod.fst

instance (s : History) (m : Addr) : Decidable (s.Accepted m) :=
  inferInstanceAs (Decidable (m ∈ s.arrivals.map Prod.fst))

/-- The `when` that `m` was last accepted with. -/
def requested (s : History) (m : Addr) : Option ℤ := s.arrivals.reverse.lookup m

/-- `m` is linked in the queue. -/
def Linked (s : History) (m : Addr) : Prop := s.queue.mInboundQueue.Linked m

/-- One call. -/
inductive Step : History → Call → History → Prop
  | createMessage {s} (m : Addr) (target : Option Target) (now : ℤ) (hnew : s.queue.mem m = none) :
      Step s (.createMessage m target now) { s with queue := s.queue.newMessage m target now }
  | enqueueMessage {s q' b} (m : Addr) (when : ℤ)
      (hrun : Completes (fun n => s.queue.enqueueMessage n (some m) when) (b, q')) :
      Step s (.enqueueMessage m when) { s with
        queue := q'
        arrivals := if s.queue.target m = none then s.arrivals else s.arrivals ++ [(m, when)] }
  | dequeueAtHead {s p q} (hrun : s.queue.mInboundQueue.dequeueAtHead = .done (p, q)) :
      Step s .dequeueAtHead { s with queue := { s.queue with mInboundQueue := q } }
  | next {s r q'} (now : ℤ) (hrun : s.queue.nextLocked now = .done (r, q')) :
      Step s (.next now) { s with queue := q', returned := s.returned ++ r.returned }

/-- The run of calls `tr` from a queue that nothing was sent to. -/
abbrev Runs (mem : Heap (Link Message)) (mPoll : WakePipe) (tr : List (Taken History Call))
    (s : History) : Prop := Run Step (start mem mPoll) tr s

variable {s t : History} {c : Call} {m a b : Addr} {when now : ℤ} {mem : Heap (Link Message)}
  {mPoll : WakePipe} {tr : List (Taken History Call)}

/-! ### What a call does -/

/-- Everything a completed `enqueueMessage` can do. -/
theorem Step.enqueueMessage_cases (h : Step s (.enqueueMessage m when) t) :
    s.queue.target m = none ∧ t = s ∨
    s.queue.target m ≠ none ∧
      Completes (fun n => s.queue.mInboundQueue.enqueueAtTimeOut n (some m) when)
        t.queue.mInboundQueue ∧
      t.arrivals = s.arrivals ++ [(m, when)] ∧ t.returned = s.returned := by
  cases h with
  | enqueueMessage _ _ hrun =>
    obtain ⟨-, -, ⟨ht, rfl⟩ | ⟨ht, hdone, -⟩⟩ := MessageQueue.enqueueMessage_cases hrun
    · exact Or.inl ⟨ht, by simp [ht]⟩
    · exact Or.inr ⟨ht, hdone, by simp [ht], rfl⟩

/-- Everything a round of `next` can do. -/
theorem Step.next_cases (h : Step s (.next now) t) :
    t.arrivals = s.arrivals ∧
    (s.queue.mInboundQueue.head = none ∧ t = s ∨
      ∃ a q, s.queue.mInboundQueue.head = some a ∧
        s.queue.mInboundQueue.dequeueAtHead = .done (some a, q) ∧
        (now < s.queue.stamp a ∧ t.queue.mInboundQueue = q ∧ t.returned = s.returned ∨
          s.queue.stamp a ≤ now ∧
            t.queue.mInboundQueue = { q with mem := MessageQueue.handOut q.mem a } ∧
            t.returned = s.returned ++ [a])) := by
  cases h with
  | next _ hrun =>
    refine ⟨rfl, ?_⟩
    rcases MessageQueue.nextLocked_cases hrun with ⟨hh, rfl, rfl⟩ | ⟨a, q, hh, hdeq, -, hres⟩
    · exact Or.inl ⟨hh, by simp [NextResult.returned]⟩
    · refine Or.inr ⟨a, q, hh, hdeq, ?_⟩
      rcases hres with ⟨hlt, rfl, rfl⟩ | ⟨hle, rfl, rfl⟩
      · exact Or.inl ⟨hlt, rfl, by simp [NextResult.returned]⟩
      · exact Or.inr ⟨hle, rfl, rfl⟩

/-! ### What a call leaves alone -/

/-- No call deletes, restamps or redirects a message. -/
theorem Step.keeps (h : Step s c t) (ha : (s.queue.mem a).isSome) :
    KeepsAt s.queue.mem t.queue.mem a := by
  cases h with
  | createMessage m target now hnew => exact MessageQueue.keepsAt_newMessage ha hnew
  | enqueueMessage m when hrun => exact MessageQueue.enqueueMessage_keeps hrun a
  | dequeueAtHead hrun => exact MessageQueue.dequeueAtHead_keeps hrun a
  | next now hrun => exact MessageQueue.nextLocked_keeps hrun a

theorem Step.stamp (h : Step s c t) (ha : (s.queue.mem a).isSome) :
    t.queue.stamp a = s.queue.stamp a :=
  (h.keeps ha).stamp

theorem Step.target (h : Step s c t) (ha : (s.queue.mem a).isSome) :
    t.queue.target a = s.queue.target a :=
  (h.keeps ha).target

/-! ### What is reached from the head -/

/-- The head and the `next` of every accepted message are NULL or accepted, and an accepted message
    is alive with a target. -/
structure Closed (s : History) : Prop where
  head : ∀ a, s.queue.mInboundQueue.head = some a → s.Accepted a
  next : ∀ a b, s.Accepted a → (s.queue.mem a).bind Link.next = some b → s.Accepted b
  target : ∀ a, s.Accepted a → s.queue.target a ≠ none

theorem Closed.live (h : s.Closed) (ha : s.Accepted a) : (s.queue.mem a).isSome :=
  MessageQueue.live_of_target (h.target a ha)

/-- Only accepted messages are met from the head. -/
theorem Closed.accepted (h : s.Closed) (ha : s.Linked a) : s.Accepted a := by
  have hreach : ∀ p, Reach Link.next s.queue.mem p a → (∀ x, p = some x → s.Accepted x) →
      s.Accepted a := by
    intro p hp
    induction hp with
    | here => exact fun hx => hx _ rfl
    | @next x y n hn _ ih =>
      intro hx
      exact ih ha fun z hz => h.next x z (hx x rfl) (by simp [hn, hz])
  exact hreach _ ha h.head

/-- Where a `next` link leads after a write. -/
theorem next_upd_cases {h : Heap (Link Message)} {v : Ptr}
    (hb : (h.upd m (Link.withNext v) a).bind Link.next = some b) :
    a = m ∧ v = some b ∨ a ≠ m ∧ (h a).bind Link.next = some b := by
  rcases eq_or_ne a m with rfl | hne
  · rw [Heap.upd_same] at hb
    cases hn : h a with
    | none => simp [hn] at hb
    | some n => exact Or.inl ⟨rfl, by simpa [hn] using hb⟩
  · rw [Heap.upd_of_ne hne] at hb
    exact Or.inr ⟨hne, hb⟩

@[simp] theorem next_upd_withPrev {h : Heap (Link Message)} {v : Ptr} :
    (h.upd m (Link.withPrev v) a).bind Link.next = (h a).bind Link.next := by
  rcases eq_or_ne a m with rfl | hne
  · cases hn : h a <;> simp [hn]
  · rw [Heap.upd_of_ne hne]

/-- The links after `enqueueAtTimeOut` lead to the new message or to where links led before, and
    the link of the new message leads to a linked one. -/
theorem next_enqueueAtTimeOut {q q' : Queue Message} {n : ℕ}
    (h : q.enqueueAtTimeOut n (some m) when = .done q') :
    (∀ a, q'.head = some a → a = m ∨ q.head = some a) ∧
    ∀ a b, (q'.mem a).bind Link.next = some b →
      b = m ∨ a = m ∧ q.Linked b ∨ a ≠ m ∧ (q.mem a).bind Link.next = some b := by
  rcases Queue.enqueueAtTimeOut_done h with ⟨-, h⟩ | ⟨p, y, n, hp, hn, hnext, -, -, rfl⟩
  · obtain ⟨-, hh, hmem⟩ := Queue.enqueueAtHead_done h
    refine ⟨fun a ha => Or.inl (Option.some.inj (hh.symm.trans ha)).symm, ?_⟩
    intro a b hb
    rcases hmem with ⟨-, hmem⟩ | ⟨c, hc, -, hmem⟩
    · rw [hmem, next_upd_withPrev] at hb
      rcases next_upd_cases hb with ⟨-, hb⟩ | hb
      · cases hb
      · exact Or.inr (Or.inr hb)
    · rw [hmem, next_upd_withPrev, next_upd_withPrev] at hb
      rcases next_upd_cases hb with ⟨ha, hb⟩ | hb
      · rw [Option.some.injEq] at hb
        exact Or.inr (Or.inl ⟨ha, by rw [Queue.Linked, hc, hb]; exact .here⟩)
      · exact Or.inr (Or.inr hb)
  · refine ⟨fun a ha => Or.inr ha, ?_⟩
    intro a b hb
    rw [next_upd_withPrev] at hb
    rcases next_upd_cases hb with ⟨-, hb⟩ | ⟨-, hb⟩
    · exact Or.inl (Option.some.inj hb).symm
    · rcases next_upd_cases hb with ⟨ha, hb⟩ | hb
      · rw [Option.some.injEq] at hb
        exact Or.inr (Or.inl ⟨ha, hb ▸ hp.snoc hn hnext⟩)
      · exact Or.inr (Or.inr hb)

/-- The links after `dequeueAtHead` lead where links led before. -/
theorem next_dequeueAtHead {q q' : Queue Message} {p : Ptr} (h : q.dequeueAtHead = .done (p, q')) :
    (∀ b, q'.head = some b → ∃ a, q.head = some a ∧ (q.mem a).bind Link.next = some b) ∧
    ∀ a, (q'.mem a).bind Link.next = (q.mem a).bind Link.next := by
  obtain ⟨a, n, ha, hn, -, hh, hmem⟩ := Queue.dequeueAtHead_done h
  refine ⟨fun b hb => ⟨a, ha, by rw [hn, Option.bind_some, ← hh, hb]⟩, ?_⟩
  intro x
  rcases hmem with ⟨-, hmem, -⟩ | ⟨b, -, -, hmem, -⟩
  · rw [hmem]
  · rw [hmem, next_upd_withPrev]

theorem Closed.createMessage {target : Option Target} (h : s.Closed)
    (hstep : Step s (.createMessage m target now) t) : t.Closed := by
  have hstep' := hstep
  cases hstep with
  | createMessage _ _ _ hnew =>
    have hmem : ∀ x, s.Accepted x → s.queue.mem.alloc m (Message.createMessage target now) x =
        s.queue.mem x := by
      intro x hx
      have hlive := h.live hx
      refine Heap.alloc_of_ne ?_
      rintro rfl
      simp [hnew] at hlive
    refine ⟨h.head, fun x y hx hy => h.next x y hx ?_, ?_⟩
    · rw [← hmem x hx]
      exact hy
    · intro x hx
      rw [hstep'.target (h.live hx)]
      exact h.target x hx

theorem Closed.enqueueMessage (h : s.Closed) (hstep : Step s (.enqueueMessage m when) t) :
    t.Closed := by
  rcases hstep.enqueueMessage_cases with ⟨-, rfl⟩ | ⟨ht, ⟨n, hn⟩, harr, -⟩
  · exact h
  · have hacc : ∀ x, t.Accepted x ↔ s.Accepted x ∨ x = m := by
      intro x
      simp [Accepted, harr]
    obtain ⟨hhead, hnext⟩ := next_enqueueAtTimeOut hn
    refine ⟨?_, ?_, ?_⟩
    · intro x hx
      rcases hhead x hx with rfl | hx
      · exact (hacc x).mpr (Or.inr rfl)
      · exact (hacc x).mpr (Or.inl (h.head x hx))
    · intro x y hx hy
      rw [hacc] at hx ⊢
      rcases hnext x y hy with rfl | ⟨-, hy⟩ | ⟨hxm, hy⟩
      · exact Or.inr rfl
      · exact Or.inl (h.accepted hy)
      · exact Or.inl (h.next x y (hx.resolve_right hxm) hy)
    · intro x hx
      rcases (hacc x).mp hx with hx | rfl
      · rw [hstep.target (h.live hx)]
        exact h.target x hx
      · rwa [hstep.target (MessageQueue.live_of_target ht)]

theorem Closed.dequeueAtHead (h : s.Closed) (hstep : Step s .dequeueAtHead t) : t.Closed := by
  have hstep' := hstep
  cases hstep with
  | dequeueAtHead hrun =>
    obtain ⟨hhead, hnext⟩ := next_dequeueAtHead hrun
    refine ⟨?_, fun x y hx hy => h.next x y hx ((hnext x).symm.trans hy), ?_⟩
    · intro x hx
      obtain ⟨y, hy, hyx⟩ := hhead x hx
      exact h.next y x (h.head y hy) hyx
    · intro x hx
      rw [hstep'.target (h.live hx)]
      exact h.target x hx

theorem Closed.nextStep (h : s.Closed) (hstep : Step s (.next now) t) : t.Closed := by
  obtain ⟨harr, ⟨-, rfl⟩ | ⟨a, q, -, hdeq, hres⟩⟩ := hstep.next_cases
  · exact h
  · have hacc : ∀ x, t.Accepted x ↔ s.Accepted x := fun x => by rw [Accepted, harr, Accepted]
    obtain ⟨hhead, hnext⟩ := next_dequeueAtHead hdeq
    have hlinks : t.queue.mInboundQueue.head = q.head ∧
        ∀ x y, (t.queue.mem x).bind Link.next = some y → (q.mem x).bind Link.next = some y := by
      rcases hres with ⟨-, hq, -⟩ | ⟨-, hq, -⟩
      · exact ⟨by rw [hq], fun x y hy => by rwa [MessageQueue.mem, hq] at hy⟩
      · refine ⟨by rw [hq], ?_⟩
        intro x y hy
        rw [MessageQueue.mem, hq] at hy
        rcases eq_or_ne x a with rfl | hne
        · cases hx : q.mem x <;> simp [MessageQueue.handOut, hx] at hy
        · simpa [MessageQueue.handOut_of_ne hne] using hy
    refine ⟨?_, ?_, ?_⟩
    · intro x hx
      rw [hlinks.1] at hx
      obtain ⟨y, hy, hyx⟩ := hhead x hx
      exact (hacc x).mpr (h.next y x (h.head y hy) hyx)
    · intro x y hx hy
      exact (hacc y).mpr (h.next x y ((hacc x).mp hx) ((hnext x).symm.trans (hlinks.2 x y hy)))
    · intro x hx
      rw [hacc] at hx
      rw [hstep.target (h.live hx)]
      exact h.target x hx

theorem Closed.step (h : s.Closed) (hstep : Step s c t) : t.Closed := by
  cases c with
  | createMessage m target now => exact h.createMessage hstep
  | enqueueMessage m when => exact h.enqueueMessage hstep
  | dequeueAtHead => exact h.dequeueAtHead hstep
  | next now => exact h.nextStep hstep

theorem closed_start : (start mem mPoll).Closed := by
  refine ⟨?_, ?_, ?_⟩ <;> intro a <;> simp [start, MessageQueue.init, Queue.empty, Accepted]

theorem Closed.of_run (hrun : Runs mem mPoll tr s) : s.Closed :=
  hrun.invariant closed_start fun _ _ hstep h => h.step hstep

/-- An accepted message stays accepted. -/
theorem Step.accepted (h : Step s c t) (ha : s.Accepted a) : t.Accepted a := by
  cases h with
  | createMessage => exact ha
  | enqueueMessage m when hrun =>
    by_cases ht : s.queue.target m = none
    · simpa [Accepted, ht] using ha
    · simpa [Accepted, ht] using Or.inl (by simpa [Accepted] using ha)
  | dequeueAtHead => exact ha
  | next => exact ha

/-- An accepted message keeps its stamp for the rest of a run. -/
theorem Closed.run (hc : s.Closed) (hrun : Run Step s tr t) :
    t.Closed ∧ ∀ a, s.Accepted a → t.Accepted a ∧ t.queue.stamp a = s.queue.stamp a := by
  refine hrun.invariant (I := fun t => t.Closed ∧ ∀ a, s.Accepted a →
    t.Accepted a ∧ t.queue.stamp a = s.queue.stamp a) ⟨hc, fun a ha => ⟨ha, rfl⟩⟩ ?_
  rintro x - hstep ⟨hx, hkeep⟩
  refine ⟨hx.step hstep, ?_⟩
  intro a ha
  obtain ⟨hacc, hstamp⟩ := hkeep a ha
  exact ⟨hstep.accepted hacc, (hstep.stamp (hx.live hacc)).trans hstamp⟩

/-! ### Which calls complete -/

/-- From every state of a run, a call with a message that has a target returns exactly when the
    queue is empty, `when` is 0, or some linked message is stamped later than `when`. -/
theorem enqueueMessage_completes_iff (hrun : Runs mem mPoll tr s) (ht : s.queue.target m ≠ none) :
    (∃ r, Completes (fun n => s.queue.enqueueMessage n (some m) when) r) ↔
      s.queue.mInboundQueue.head = none ∨ when = 0 ∨
        ∃ a, s.Linked a ∧ when < s.queue.stamp a := by
  have hc := Closed.of_run hrun
  have hlinked : ∀ a, s.queue.mInboundQueue.Linked a → (s.queue.mInboundQueue.mem a).isSome :=
    fun a ha => hc.live (hc.accepted ha)
  refine Iff.trans ?_ (Queue.enqueueAtTimeOut_completes_iff (MessageQueue.live_of_target ht) hlinked)
  simp only [MessageQueue.enqueueMessage_accepted ht]
  constructor
  · rintro ⟨r, n, hn⟩
    obtain ⟨q, hq, -⟩ := Outcome.bind_eq_done.mp hn
    exact ⟨q, n, hq⟩
  · rintro ⟨q, n, hq⟩
    exact ⟨_, n, Outcome.bind_eq_done.mpr ⟨q, hq, rfl⟩⟩

/-- A second message with `when = 0` is accepted. -/
theorem enqueueMessage_completes_front : ∃ tr s, Runs twoMessages pipe tr s ∧
    tr.map Taken.act = [.enqueueMessage 0 5] ∧ ¬s.Linked 1 ∧
    ∃ r, Completes (fun n => s.queue.enqueueMessage n (some 1) 0) r := by
  have h₁ := Run.nil.snoc (Step.enqueueMessage (s := start twoMessages pipe) 0 5 ⟨1, rfl⟩)
  refine ⟨_, _, h₁, rfl, ?_, (enqueueMessage_completes_iff h₁ (by decide)).mpr (Or.inr (Or.inl rfl))⟩
  exact (Queue.Fwd.linked_iff (show Queue.Fwd _ [0] from ⟨⟨rfl, _, rfl, rfl⟩, rfl⟩)).not.mpr
    (by decide)

/-- A second message for a later time does not return: it belongs behind the first, and the search
    appends it and then follows NULL. -/
theorem enqueueMessage_faults_behind : ∃ tr s, Runs twoMessages pipe tr s ∧
    tr.map Taken.act = [.enqueueMessage 0 5] ∧ ¬s.Linked 1 ∧ s.queue.target 1 ≠ none ∧
    Faults (fun n => s.queue.enqueueMessage n (some 1) 5) .nullDeref ∧
    ¬∃ r, Completes (fun n => s.queue.enqueueMessage n (some 1) 5) r := by
  have h₁ := Run.nil.snoc (Step.enqueueMessage (s := start twoMessages pipe) 0 5 ⟨1, rfl⟩)
  refine ⟨_, _, h₁, rfl, ?_, by decide, ⟨2, rfl⟩,
    (MessageQueue.enqueueMessage_stable _ _ _).not_completes ⟨2, rfl⟩⟩
  exact (Queue.Fwd.linked_iff (show Queue.Fwd _ [0] from ⟨⟨rfl, _, rfl, rfl⟩, rfl⟩)).not.mpr
    (by decide)

/-! ### When a message is returned -/

theorem requested_isSome (h : s.Accepted m) : ∃ w, s.requested m = some w := by
  obtain ⟨⟨_, w⟩, hw, rfl⟩ := List.mem_map.mp h
  rw [← Option.isSome_iff_exists, requested, List.lookup_isSome_iff]
  exact ⟨_, List.mem_reverse.mpr hw, by simp⟩

/-- In every run, `next` only returns messages whose requested time has come exactly when none of
    its readings lies between the stamp of the head and the time the head was requested for. -/
theorem next_due_iff (hrun : Runs mem mPoll tr s) :
    (∀ x ∈ tr, ∀ now m, x.act = .next now → x.post.returned = x.pre.returned ++ [m] →
      ∃ w, x.pre.requested m = some w ∧ w ≤ now) ↔
    ∀ x ∈ tr, ∀ now m w, x.act = .next now → x.pre.queue.mInboundQueue.head = some m →
      x.pre.requested m = some w → ¬(x.pre.queue.stamp m ≤ now ∧ now < w) := by
  refine forall₂_congr fun x hx => forall₂_congr ?_
  intro now m
  have hc : x.pre.Closed := hrun.invariant_pre closed_start (fun _ _ hstep h => h.step hstep) hx
  constructor
  · rintro h w hact hhead hw ⟨hle, hlt⟩
    have hstep := hact ▸ hrun.step_of_mem hx
    obtain ⟨-, ⟨hh, -⟩ | ⟨a, q, hh, -, ⟨hearly, -⟩ | ⟨-, -, hret⟩⟩⟩ := hstep.next_cases
    · rw [hh] at hhead; cases hhead
    · rw [hh, Option.some.injEq] at hhead
      exact absurd (hhead ▸ hle) (not_le.mpr hearly)
    · rw [hh, Option.some.injEq] at hhead
      obtain ⟨w', hw', hdue⟩ := h hact (hhead ▸ hret)
      rw [hw, Option.some.injEq] at hw'
      omega
  · intro h hact hret
    have hstep := hact ▸ hrun.step_of_mem hx
    obtain ⟨-, ⟨-, ht⟩ | ⟨a, q, hh, -, ⟨-, -, hret'⟩ | ⟨hdue, -, hret'⟩⟩⟩ := hstep.next_cases
    · simp [ht] at hret
    · simp [hret'] at hret
    · have ham : a = m := by simpa [hret'] using hret
      subst ham
      obtain ⟨w, hw⟩ := requested_isSome (hc.accepted (by rw [Linked, Queue.Linked, hh]; exact .here))
      exact ⟨w, hw, not_lt.mp fun hlt => h w hact hh hw ⟨hdue, hlt⟩⟩

/-- A message sent for its own stamp is returned on time. -/
theorem next_due_on_time : ∃ tr s, Runs twoMessages pipe tr s ∧
    tr.map Taken.act = [.enqueueMessage 0 1, .next 1] ∧ s.returned = [0] ∧
    ∀ x ∈ tr, ∀ now m, x.act = .next now → x.post.returned = x.pre.returned ++ [m] →
      ∃ w, x.pre.requested m = some w ∧ w ≤ now := by
  have h₁ := Run.nil.snoc (Step.enqueueMessage (s := start twoMessages pipe) 0 1 ⟨1, rfl⟩)
  have h₂ := h₁.snoc (Step.next 1 rfl)
  refine ⟨_, _, h₂, rfl, rfl, (next_due_iff h₂).mpr ?_⟩
  simp only [List.nil_append, List.cons_append, List.forall_mem_cons]
  refine ⟨?_, ?_, by simp⟩
  · rintro _ _ _ ⟨⟩
  · rintro _ _ _ ⟨⟩ ⟨⟩ ⟨⟩
    decide

/-- A message stamped 1 and sent for time 100 is returned at time 10. -/
theorem next_early : ∃ tr s, Runs twoMessages pipe tr s ∧
    tr.map Taken.act = [.enqueueMessage 0 100, .next 10] ∧ s.returned = [0] ∧
    s.requested 0 = some 100 ∧
    ¬∀ x ∈ tr, ∀ now m, x.act = .next now → x.post.returned = x.pre.returned ++ [m] →
      ∃ w, x.pre.requested m = some w ∧ w ≤ now := by
  have h₁ := Run.nil.snoc (Step.enqueueMessage (s := start twoMessages pipe) 0 100 ⟨1, rfl⟩)
  have h₂ := h₁.snoc (Step.next 10 rfl)
  refine ⟨_, _, h₂, rfl, rfl, rfl, ?_⟩
  intro h
  obtain ⟨w, hw, hle⟩ := h _ (List.mem_append_right _ (List.mem_singleton_self _)) 10 0 rfl rfl
  obtain rfl : 100 = w := Option.some.inj hw
  exact absurd hle (by decide)

end History

end ThreadManager
