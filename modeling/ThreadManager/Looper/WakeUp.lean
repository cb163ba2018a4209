import ThreadManager.Looper.System

/-! Is a message that is linked while the looper waits always going to wake it?

    A producer wakes the looper only if it found the queue empty, and `next` takes one message a
    wake. So a wake is in flight for the first of a number of messages only: as long as `next` never
    finds more than one message linked the looper cannot wait beside a message, and after it has
    found two it does. -/

namespace ThreadManager
open Schemes

namespace Sys

variable {s t : Sys} {a : Act} {x : Addr} {when now : ℤ} {mem : Heap (Link Message)}
  {mPoll : WakePipe} {tr : List (Taken Sys Act)}

/-- The pipe is not empty, or a producer still has to do its wake. -/
def WakeInFlight (s : Sys) : Prop := 0 < s.queue.mPoll.count ∨ ∃ p, s.owes p = true

/-- If the looper waits in `pollOnce(-1)` and a message is linked, a wake is in flight. -/
def NoLostWake (s : Sys) : Prop :=
  s.looper = .polling (-1) → s.queue.mInboundQueue.isEmpty = false → s.WakeInFlight

/-- If the step is a section of `next`, it finds at most one message linked. -/
def FindsOne (x : Taken Sys Act) : Prop :=
  ∀ now a, x.act = .next now → x.pre.queue.mInboundQueue.head = some a →
    (x.pre.queue.mem a).bind Link.next = none

/-! ### As long as `next` finds one message -/

/-- Outside of `next`, a wake is in flight for a linked message. -/
def Waking (s : Sys) : Prop :=
  s.looper ≠ .inNext → s.queue.mInboundQueue.isEmpty = false → s.WakeInFlight

theorem Waking.enqueue {p : ℕ} (h : s.Waking) (hstep : Step s (.enqueue p x when) t) :
    t.Waking := by
  obtain ⟨hp, -, ⟨-, rfl⟩ | ⟨target, q, -, -, rfl⟩⟩ := step_enqueue hstep
  · exact h
  · intro hpc _
    cases he : s.queue.mInboundQueue.isEmpty with
    | true => exact Or.inr ⟨p, by simp⟩
    | false =>
      rcases h hpc he with hcount | ⟨r, hr⟩
      · exact Or.inl hcount
      · have hne : r ≠ p := by
          rintro rfl
          rw [hp] at hr
          cases hr
        exact Or.inr ⟨r, by simpa [hne] using hr⟩

theorem Waking.next (hstep : Step s (.next now) t)
    (hone : ∀ a, s.queue.mInboundQueue.head = some a → (s.queue.mem a).bind Link.next = none) :
    t.Waking := by
  obtain ⟨-, r, queue, hrun, rfl⟩ := step_next hstep
  obtain ⟨-, hhead⟩ := MessageQueue.nextLocked_head hrun
  have hnone : queue.mInboundQueue.head = none := by
    rw [hhead, Option.bind_eq_none_iff]
    exact hone
  intro _ he
  cases r <;> simp [resume, Queue.isEmpty, hnone] at he

theorem Waking.step (h : s.Waking) (hstep : Step s a t)
    (hone : ∀ now x, a = .next now → s.queue.mInboundQueue.head = some x →
      (s.queue.mem x).bind Link.next = none) : t.Waking := by
  cases a with
  | createMessage m g now =>
    obtain ⟨-, -, rfl⟩ := step_createMessage hstep
    exact h
  | enqueue p m when => exact h.enqueue hstep
  | wake p =>
    obtain ⟨-, rfl⟩ := step_wake hstep
    exact fun _ _ => Or.inl (WakePipe.count_wake_pos _)
  | poll =>
    obtain ⟨-, -, mPoll, -, rfl⟩ := step_poll hstep
    exact fun hpc => absurd rfl hpc
  | interrupt =>
    obtain ⟨-, rfl⟩ := step_interrupt hstep
    exact fun hpc => absurd rfl hpc
  | next now => exact Waking.next hstep fun x hx => hone now x rfl hx
  | dispatch now =>
    obtain ⟨m, y, target, hpc, -, -, rfl⟩ := step_dispatch hstep
    exact fun _ he => h (by simp [hpc]) he
  | recycle =>
    obtain ⟨m, hpc, -, rfl⟩ := step_recycle hstep
    exact fun _ he => h (by simp [hpc]) he

/-! ### After `next` found two -/

/-- No wake is in flight. -/
def Quiet (s : Sys) : Prop := s.queue.mPoll.count = 0 ∧ ∀ p, s.owes p = false

/-- Exactly one wake is in flight. -/
def OneWake (s : Sys) : Prop :=
  s.queue.mPoll.count = 1 ∧ (∀ p, s.owes p = false) ∨
    s.queue.mPoll.count = 0 ∧ ∃ p, ∀ q, s.owes q = decide (q = p)

/-- One wake at most is in flight, and only for a linked message the looper has not come to. -/
def Counted (s : Sys) : Prop :=
  s.Quiet ∧ (s.looper = .inNext → s.queue.mInboundQueue.isEmpty = false) ∨
    s.OneWake ∧ s.queue.mInboundQueue.isEmpty = false ∧ s.looper ≠ .inNext

/-- A message is linked, the looper is past `next` and no wake is in flight. -/
def Stranded (s : Sys) : Prop :=
  s.Quiet ∧ s.queue.mInboundQueue.isEmpty = false ∧ s.looper ≠ .inNext

theorem Quiet.not_wakeInFlight (h : s.Quiet) : ¬s.WakeInFlight := by
  rintro (hcount | ⟨p, hp⟩)
  · exact absurd h.1 hcount.ne'
  · rw [h.2 p] at hp
    cases hp

theorem Counted.enqueue {p : ℕ} (h : s.Counted) (hstep : Step s (.enqueue p x when) t) :
    t.Counted := by
  obtain ⟨hp, -, ⟨-, rfl⟩ | ⟨target, q, -, ⟨n, hn⟩, rfl⟩⟩ := step_enqueue hstep
  · exact h
  · have hfull := Queue.enqueueAtTimeOut_not_empty hn
    cases he : s.queue.mInboundQueue.isEmpty with
    | false =>
      -- a linked message was there: nobody comes to owe a wake
      rw [← hp, Function.update_eq_self]
      rcases h with ⟨hq, -⟩ | ⟨ho, -, hpc⟩
      · exact Or.inl ⟨hq, fun _ => hfull⟩
      · exact Or.inr ⟨ho, hfull, hpc⟩
    | true =>
      rcases h with ⟨hq, hpc⟩ | ⟨-, hne, -⟩
      · refine Or.inr ⟨Or.inr ⟨hq.1, p, ?_⟩, hfull, ?_⟩
        · intro r
          rcases eq_or_ne r p with rfl | hr
          · simp
          · simp [hr, hq.2 r]
        · intro hin
          rw [hpc hin] at he
          cases he
      · rw [hne] at he
        cases he

/-- The producer that owes the one wake is the one that does it. -/
theorem Counted.wake {p : ℕ} (h : s.Counted) (hstep : Step s (.wake p) t) : t.Counted := by
  obtain ⟨hp, rfl⟩ := step_wake hstep
  rcases h with ⟨hq, -⟩ | ⟨⟨-, ho⟩ | ⟨hcount, r, hr⟩, hne, hpc⟩
  · rw [hq.2 p] at hp
    cases hp
  · rw [ho p] at hp
    cases hp
  · have hpr : p = r := by simpa [hp] using hr p
    subst hpr
    refine Or.inr ⟨Or.inl ⟨WakePipe.count_wake_of_zero hcount, ?_⟩, hne, hpc⟩
    intro q
    rcases eq_or_ne q p with rfl | hq
    · simp
    · simp [hq, hr q]

theorem Counted.step (h : s.Counted) (hstep : Step s a t) (ha : a ≠ .interrupt) : t.Counted := by
  cases a with
  | createMessage m g now =>
    obtain ⟨-, -, rfl⟩ := step_createMessage hstep
    exact h
  | enqueue p m when => exact h.enqueue hstep
  | wake p => exact h.wake hstep
  | poll =>
    obtain ⟨-, hcount, mPoll, hzero, rfl⟩ := step_poll hstep
    rcases h with ⟨hq, -⟩ | ⟨⟨-, ho⟩ | ⟨hzero', -⟩, hne, -⟩
    · exact absurd hq.1 hcount.ne'
    · exact Or.inl ⟨⟨hzero, ho⟩, fun _ => hne⟩
    · exact absurd hzero' hcount.ne'
  | interrupt => exact absurd rfl ha
  | next now =>
    obtain ⟨hpc, r, queue, hrun, rfl⟩ := step_next hstep
    obtain ⟨hpoll, -⟩ := MessageQueue.nextLocked_head hrun
    rcases h with ⟨hq, -⟩ | ⟨-, -, hno⟩
    · have hq' : (s.resume now queue r).Quiet := by
        cases r <;> exact ⟨hpoll ▸ hq.1, hq.2⟩
      exact Or.inl ⟨hq', fun hin => by cases r <;> cases hin⟩
    · exact absurd hpc hno
  | dispatch now =>
    obtain ⟨m, y, target, hpc, -, -, rfl⟩ := step_dispatch hstep
    rcases h with ⟨hq, -⟩ | ⟨ho, hne, -⟩
    · exact Or.inl ⟨hq, by rintro ⟨⟩⟩
    · exact Or.inr ⟨ho, hne, by rintro ⟨⟩⟩
  | recycle =>
    obtain ⟨m, hpc, -, rfl⟩ := step_recycle hstep
    rcases h with ⟨hq, -⟩ | ⟨ho, hne, -⟩
    · exact Or.inl ⟨hq, by rintro ⟨⟩⟩
    · exact Or.inr ⟨ho, hne, by rintro ⟨⟩⟩

/-- Nobody wakes a looper that left a message behind. -/
theorem Stranded.step (h : s.Stranded) (hstep : Step s a t) (ha : a ≠ .interrupt) :
    t.Stranded := by
  obtain ⟨hq, hne, hpc⟩ := h
  cases a with
  | createMessage m g now =>
    obtain ⟨-, -, rfl⟩ := step_createMessage hstep
    exact ⟨hq, hne, hpc⟩
  | enqueue p m when =>
    obtain ⟨hp, -, ⟨-, rfl⟩ | ⟨target, q, -, ⟨n, hn⟩, rfl⟩⟩ := step_enqueue hstep
    · exact ⟨hq, hne, hpc⟩
    · rw [hne, ← hp, Function.update_eq_self]
      exact ⟨hq, Queue.enqueueAtTimeOut_not_empty hn, hpc⟩
  | wake p =>
    obtain ⟨hp, -⟩ := step_wake hstep
    rw [hq.2 p] at hp
    cases hp
  | poll =>
    obtain ⟨-, hcount, -⟩ := step_poll hstep
    exact absurd hq.1 hcount.ne'
  | interrupt => exact absurd rfl ha
  | next now => exact absurd (step_next hstep).1 hpc
  | dispatch now =>
    obtain ⟨m, y, target, -, -, -, rfl⟩ := step_dispatch hstep
    exact ⟨hq, hne, by rintro ⟨⟩⟩
  | recycle =>
    obtain ⟨m, -, -, rfl⟩ := step_recycle hstep
    exact ⟨hq, hne, by rintro ⟨⟩⟩

/-- A section of `next` that finds two messages leaves the second one stranded. -/
theorem Counted.stranded {b : Addr} (h : s.Counted) (hstep : Step s (.next now) t)
    (hhead : s.queue.mInboundQueue.head = some x)
    (hnext : (s.queue.mem x).bind Link.next = some b) : t.Stranded := by
  obtain ⟨hpc, r, queue, hrun, rfl⟩ := step_next hstep
  obtain ⟨hpoll, hh⟩ := MessageQueue.nextLocked_head hrun
  rw [hhead, Option.bind_some, hnext] at hh
  rcases h with ⟨hq, -⟩ | ⟨-, -, hno⟩
  · refine ⟨?_, ?_, ?_⟩
    · cases r <;> exact ⟨hpoll ▸ hq.1, hq.2⟩
    · cases r <;> simp [resume, Queue.isEmpty, hh]
    · cases r <;> rintro ⟨⟩
  · exact absurd hpc hno

/-! ### The runs without a lost wake -/

/-- In a run in which `next` never finds more than one message linked no wake is lost. Conversely,
    in a run without EINTR that has come back to `pollOnce(-1)`, if no wake was lost then `next`
    never found more than one message linked. -/
theorem no_lost_wake_iff (hrun : Runs mem mPoll tr s) (hnew : mPoll.count = 0) :
    ((∀ x ∈ tr, FindsOne x) → ∀ x ∈ tr, x.post.NoLostWake) ∧
    (s.looper = .polling (-1) → (∀ x ∈ tr, x.act ≠ .interrupt) →
      (∀ x ∈ tr, x.post.NoLostWake) → ∀ x ∈ tr, FindsOne x) := by
  have hempty : (start mem mPoll).queue.mInboundQueue.isEmpty = true := rfl
  constructor
  · intro hone x hx
    have hpost : x.post.Waking := by
      refine Waking.step ?_ (hrun.step_of_mem hx) fun now a hact hh => hone x hx now a hact hh
      refine hrun.invariant_pre (I := Waking) ?_ (fun y hy hstep h =>
        h.step hstep fun now a hact hh => hone y hy now a hact hh) hx
      intro _ he
      rw [hempty] at he
      cases he
    exact fun hpc he => hpost (by simp [hpc]) he
  · intro hend hint hkept x hx now a hact hhead
    by_contra hnext
    obtain ⟨b, hb⟩ := Option.ne_none_iff_exists'.mp hnext
    have hcounted : x.pre.Counted :=
      hrun.invariant_pre (Or.inl ⟨⟨hnew, fun _ => rfl⟩, by rintro ⟨⟩⟩)
        (fun y hy hstep h => h.step hstep (hint y hy)) hx
    have hpost : x.post.Stranded := hcounted.stranded (hact ▸ hrun.step_of_mem hx) hhead hb
    obtain ⟨tr', hrun', hsub⟩ := hrun.after hx
    have hstranded : s.Stranded :=
      hrun'.invariant hpost fun y hy hstep h => h.step hstep (hint y (hsub y hy))
    have hlast : s.NoLostWake :=
      hrun.last_of_forall_post (fun _ he => by rw [hempty] at he; cases he) hkept
    exact hstranded.1.not_wakeInFlight (hlast hend hstranded.2.1)

/-- A single message is sent, wakes the looper and is delivered. -/
theorem no_lost_wake_run : ∃ tr s, Runs twoMessages pipe tr s ∧
    tr.map Taken.act = [.enqueue 0 0 5, .wake 0, .poll, .next 10, .dispatch 10, .recycle] ∧
    ∀ x ∈ tr, x.post.NoLostWake := by
  have h₀ : Runs twoMessages pipe [] _ := Run.nil
  have h₁ := h₀.snoc (a := Act.enqueue 0 0 5) ⟨rfl, 1, rfl⟩
  have h₂ := h₁.snoc (a := Act.wake 0) ⟨rfl, 0, rfl⟩
  have h₃ := h₂.snoc (a := Act.poll) ⟨⟨⟨_, rfl⟩, by decide⟩, 1, rfl⟩
  have h₄ := h₃.snoc (a := Act.next 10) ⟨rfl, 0, rfl⟩
  have h₅ := h₄.snoc (a := Act.dispatch 10) ⟨⟨_, rfl⟩, 0, rfl⟩
  have h₆ := h₅.snoc (a := Act.recycle) ⟨⟨_, rfl⟩, 0, rfl⟩
  refine ⟨_, _, h₆, rfl, (no_lost_wake_iff h₆ rfl).1 ?_⟩
  simp only [List.nil_append, List.cons_append, List.forall_mem_cons]
  refine ⟨?_, ?_, ?_, ?_, ?_, ?_, by simp⟩
  · rintro _ _ ⟨⟩
  · rintro _ _ ⟨⟩
  · rintro _ _ ⟨⟩
  · rintro _ _ ⟨⟩ ⟨⟩
    rfl
  · rintro _ _ ⟨⟩
  · rintro _ _ ⟨⟩

/-- Two messages are sent before the looper comes to `next`: one wake, one message delivered, and
    the looper waits beside the other one. -/
theorem second_message_stranded : ∃ tr s, Runs twoMessages pipe tr s ∧
    tr.map Taken.act = [.enqueue 0 0 5, .enqueue 1 1 0, .wake 0, .poll, .next 10, .dispatch 10,
      .recycle] ∧
    s.looper = .polling (-1) ∧ s.queue.mInboundQueue.Fwd [0] ∧ s.queue.mPoll.count = 0 ∧
    (∀ p, s.owes p = false) ∧ ¬∀ x ∈ tr, x.post.NoLostWake := by
  have h₀ : Runs twoMessages pipe [] _ := Run.nil
  have h₁ := h₀.snoc (a := Act.enqueue 0 0 5) ⟨rfl, 1, rfl⟩
  have h₂ := h₁.snoc (a := Act.enqueue 1 1 0) ⟨rfl, 1, rfl⟩
  have h₃ := h₂.snoc (a := Act.wake 0) ⟨rfl, 0, rfl⟩
  have h₄ := h₃.snoc (a := Act.poll) ⟨⟨⟨_, rfl⟩, by decide⟩, 1, rfl⟩
  have h₅ := h₄.snoc (a := Act.next 10) ⟨rfl, 0, rfl⟩
  have h₆ := h₅.snoc (a := Act.dispatch 10) ⟨⟨_, rfl⟩, 0, rfl⟩
  have h₇ := h₆.snoc (a := Act.recycle) ⟨⟨_, rfl⟩, 0, rfl⟩
  have howes : ∀ p, (Function.update (Function.update (Function.update (fun _ => false) 0 true) 1
      false) 0 false) p = false := by
    intro p
    by_cases h0 : p = 0 <;> by_cases h1 : p = 1 <;> simp [h0, h1]
  refine ⟨_, _, h₇, rfl, rfl, ⟨⟨rfl, _, rfl, rfl⟩, rfl⟩, rfl, howes, ?_⟩
  intro h
  have hlast := h _ (List.mem_append_right _ (List.mem_singleton_self _)) rfl rfl
  exact Quiet.not_wakeInFlight ⟨rfl, howes⟩ hlast

end Sys

end ThreadManager
