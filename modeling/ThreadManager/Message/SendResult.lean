import ThreadManager.Message.Sender
import ThreadManager.Queue.SelfLink

/-! What the result of `MessageHandler::sendMessage` tells.

    The result is to be true exactly if the message went into the queue. `enqueueMessage` ends in
    `return 0` after it has linked the message, so no send ever reports success: the result is right
    only for a send that leaves everything as it was. -/

namespace ThreadManager
open Schemes

namespace MessageHandler

variable {abi : Abi} {h : MessageHandler} {s s' : MessageQueue} {m : Addr} {when : ℤ} {b : Bool}

/-- The call from `s` to `s'` linked `m`: it is in the queue, and not because nothing happened. -/
def LinkedBy (s s' : MessageQueue) (m : Addr) : Prop := s'.mInboundQueue.Linked m ∧ s' ≠ s

/-- The result is true exactly if the call linked the message, and with the result false the queue,
    its links and the pipe are as they were. -/
structure Tells (s s' : MessageQueue) (m : Addr) (b : Bool) : Prop where
  linked : b = true ↔ LinkedBy s s' m
  unchanged : b = false → s' = s

/-- Everything a returning `sendMessage` can have done. -/
theorem sendMessage_cases (hrun : Completes (fun n => h.sendMessage abi n s m when) (b, s')) :
    b = false ∧ (h.mPublisher = false ∧ s' = s ∨ h.mPublisher = true ∧
      (s.target m = none ∧ s' = s ∨ s.target m ≠ none ∧
        Completes (fun n => s.mInboundQueue.enqueueAtTimeOut n (some m) (signed 32 when))
          s'.mInboundQueue ∧
        s'.mPoll = if s.mInboundQueue.isEmpty then s.mPoll.wake else s.mPoll)) := by
  cases hpub : h.mPublisher with
  | false =>
    simp only [sendMessage, hpub, Bool.false_eq_true, if_false, Outcome.pure_eq] at hrun
    obtain ⟨_, hdone⟩ := hrun
    obtain ⟨rfl, rfl⟩ := Prod.mk.inj (Outcome.done.inj hdone)
    exact ⟨rfl, Or.inl ⟨rfl, rfl⟩⟩
  | true =>
    simp only [sendMessage, hpub, if_true, publishMessage, abi.signed_longWidth] at hrun
    obtain ⟨-, hb, hres⟩ := MessageQueue.enqueueMessage_cases hrun
    exact ⟨hb, Or.inr ⟨rfl, hres⟩⟩

/-- The result false is right only if nothing changed. -/
theorem tells_false_iff : Tells s s' m false ↔ s' = s := by
  constructor
  · intro h
    exact h.unchanged rfl
  · rintro rfl
    refine ⟨?_, fun _ => rfl⟩
    simp [LinkedBy]

/-- The result is right exactly for a send that is refused, for want of a publisher or a target, and
    for one that finds the message where it would put it, linked to itself. -/
theorem send_result_when (hrun : Completes (fun n => h.sendMessage abi n s m when) (b, s')) :
    Tells s s' m b ↔
      h.mPublisher = false ∨ s.target m = none ∨ s.mInboundQueue.Stuck m (signed 32 when) := by
  obtain ⟨rfl, ⟨hpub, rfl⟩ | ⟨hpub, ⟨ht, rfl⟩ | ⟨ht, hdone, hpoll⟩⟩⟩ := sendMessage_cases hrun
  · exact iff_of_true (tells_false_iff.mpr rfl) (Or.inl hpub)
  · exact iff_of_true (tells_false_iff.mpr rfl) (Or.inr (Or.inl ht))
  · rw [tells_false_iff]
    constructor
    · rintro rfl
      obtain ⟨n, hn⟩ := hdone
      exact Or.inr (Or.inr (Queue.stuck_of_same hn))
    · rintro (hno | hno | hstuck)
      · exact absurd (hpub.symm.trans hno) (by simp)
      · exact absurd hno ht
      · have hq : s'.mInboundQueue = s.mInboundQueue :=
          (Queue.enqueueAtTimeOut_stable _ _ _).completes_unique hdone hstuck.same
        have hne : s.mInboundQueue.isEmpty = false := hstuck.not_empty
        rw [hne] at hpoll
        obtain ⟨q, p⟩ := s'
        obtain rfl : q = s.mInboundQueue := hq
        obtain rfl : p = s.mPoll := hpoll
        rfl

/-- A queue and a message that has no target. -/
def noTarget : MessageQueue := (MessageQueue.init (fun _ => none) pipe).newMessage 0 none 1

/-- A handler without a publisher, and a message without a target. -/
theorem send_result_refused :
    (∃ s', Completes (fun n => (MessageHandler.mk 0 false).sendMessage .lp64 n
        (.init twoMessages pipe) 0 5) (false, s') ∧ Tells (.init twoMessages pipe) s' 0 false) ∧
    ∃ s', Completes (fun n => (new 0).sendMessage .ilp32 n noTarget 0 5) (false, s') ∧
      Tells noTarget s' 0 false := by
  have hrun₁ : Completes (fun n => (MessageHandler.mk 0 false).sendMessage .lp64 n
    (.init twoMessages pipe) 0 5) (false, _) := ⟨0, rfl⟩
  have hrun₂ : Completes (fun n => (new 0).sendMessage .ilp32 n noTarget 0 5) (false, _) := ⟨0, rfl⟩
  exact ⟨⟨_, hrun₁, (send_result_when hrun₁).mpr (Or.inl rfl)⟩,
    _, hrun₂, (send_result_when hrun₂).mpr (Or.inr (Or.inl rfl))⟩

/-- The first message sent to an empty queue is linked, and the result is false. -/
theorem send_result_false : ∃ s',
    Completes (fun n => (new 0).sendMessage .lp64 n (.init twoMessages pipe) 0 5) (false, s') ∧
      LinkedBy (.init twoMessages pipe) s' 0 ∧ ¬Tells (.init twoMessages pipe) s' 0 false := by
  have hhead : ∀ s' : MessageQueue, s'.mInboundQueue.head = some 0 → s' ≠ .init twoMessages pipe := by
    rintro _ hs' rfl
    cases hs'
  refine ⟨_, ⟨0, rfl⟩, ⟨Reach.here, hhead _ rfl⟩, ?_⟩
  rw [tells_false_iff]
  exact hhead _ rfl

end MessageHandler

end ThreadManager
