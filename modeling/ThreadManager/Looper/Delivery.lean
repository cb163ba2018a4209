import ThreadManager.Looper.System

/-! From `next` to `recycle`: what the looper does with one message.

    In the log a message is returned, dispatched and recycled, with nothing between the dispatch and
    the recycling but the handler's own events. `next` returns it if its stamp is not after the
    reading; `consumeMessage` handles it if its stamp is before a second reading. The two tests
    differ where both readings are the stamp, and there the message is recycled unhandled. -/

namespace ThreadManager
open Schemes

namespace Sys

variable {s t : Sys} {a : Act} {m : Addr} {p : ℕ} {when now : ℤ} {mem : Heap (Link Message)}
  {mPoll : WakePipe} {tr : List (Taken Sys Act)}

/-! ### What a step leaves alone -/

/-- Only its recycling deletes a message, and nothing restamps or redirects it. -/
theorem Step.keeps (h : Step s a t) (hlive : (s.queue.mem m).isSome)
    (hrec : a = .recycle → s.looper ≠ .recycling m) : KeepsAt s.queue.mem t.queue.mem m := by
  cases a with
  | createMessage x g now =>
    obtain ⟨hnew, -, rfl⟩ := step_createMessage h
    exact MessageQueue.keepsAt_newMessage hlive hnew
  | enqueue p x when =>
    obtain ⟨-, -, ⟨-, rfl⟩ | ⟨target, q, -, ⟨n, hn⟩, rfl⟩⟩ := step_enqueue h
    · exact Keeps.refl m
    · obtain ⟨ks, hr⟩ := Queue.enqueueAtTimeOut_relinks hn
      exact hr.keeps m
  | wake p =>
    obtain ⟨-, rfl⟩ := step_wake h
    exact Keeps.refl m
  | poll =>
    obtain ⟨-, -, mPoll, -, rfl⟩ := step_poll h
    exact Keeps.refl m
  | interrupt =>
    obtain ⟨-, rfl⟩ := step_interrupt h
    exact Keeps.refl m
  | next now =>
    obtain ⟨-, r, queue, hrun, rfl⟩ := step_next h
    cases r <;> exact MessageQueue.nextLocked_keeps hrun m
  | dispatch now =>
    obtain ⟨x, y, target, -, -, -, rfl⟩ := step_dispatch h
    exact Keeps.refl m
  | recycle =>
    obtain ⟨x, hpc, -, rfl⟩ := step_recycle h
    have hne : m ≠ x := by
      rintro rfl
      exact hrec rfl hpc
    exact congrArg _ (Function.update_of_ne hne _ _)

/-- The steps of the looper, and those of the other threads. -/
def Act.ofLooper : Act → Prop
  | .poll => True
  | .interrupt => True
  | .next _ => True
  | .dispatch _ => True
  | .recycle => True
  | _ => False

/-- A producer neither moves the looper nor writes its log. -/
theorem Step.of_producer (h : Step s a t) (ha : ¬Act.ofLooper a) :
    t.looper = s.looper ∧ t.log = s.log := by
  cases a with
  | createMessage x g now =>
    obtain ⟨-, -, rfl⟩ := step_createMessage h
    exact ⟨rfl, rfl⟩
  | enqueue p x when =>
    obtain ⟨-, -, ⟨-, rfl⟩ | ⟨target, q, -, -, rfl⟩⟩ := step_enqueue h <;> exact ⟨rfl, rfl⟩
  | wake p =>
    obtain ⟨-, rfl⟩ := step_wake h
    exact ⟨rfl, rfl⟩
  | _ => exact absurd trivial ha

/-- The looper accepts nothing. -/
theorem Step.of_looper (h : Step s a t) (ha : Act.ofLooper a) : t.accepted = s.accepted := by
  cases a with
  | poll =>
    obtain ⟨-, -, mPoll, -, rfl⟩ := step_poll h
    rfl
  | interrupt =>
    obtain ⟨-, rfl⟩ := step_interrupt h
    rfl
  | next now =>
    obtain ⟨-, r, queue, -, rfl⟩ := step_next h
    cases r <;> rfl
  | dispatch now =>
    obtain ⟨x, y, target, -, -, -, rfl⟩ := step_dispatch h
    rfl
  | recycle =>
    obtain ⟨x, -, -, rfl⟩ := step_recycle h
    rfl
  | _ => exact absurd ha id

/-! ### The log while a message is delivered -/

theorem handled_consumeMessage (m : Addr) (x : Message) (now : ℤ) :
    (∀ e ∈ consumeMessage m x now, e = .handled m ∨ e = .notified) ∧
      (consumeMessage m x now).count (.handled m) = if getWhen x < now then 1 else 0 := by
  rcases lt_or_ge (getWhen x) now with hlt | hge
  · simp only [consumeMessage, hlt, if_true, handleMessage]
    cases x.getType <;> simp
  · rw [consumeMessage, if_neg (not_lt.mpr hge), if_neg (not_lt.mpr hge)]
    simp

/-- The log ends with the return of the message to dispatch, and with its return and its dispatch
    where it is to be recycled. -/
structure Shaped (s : Sys) : Prop where
  dispatching : ∀ m, s.looper = .dispatching m → (s.queue.mem m).isSome ∧
    ∃ l n₁, s.log = l ++ [.returned m (s.queue.stamp m) n₁] ∧ s.queue.stamp m ≤ n₁
  recycling : ∀ m, s.looper = .recycling m → ∃ l g n₁ target n₂ hs,
    s.log = l ++ .returned m g n₁ :: .dispatched m target n₂ :: hs ∧ g ≤ n₁ ∧
      (∀ e ∈ hs, e = .handled m ∨ e = .notified) ∧
      hs.count (.handled m) = if g < n₂ then 1 else 0

theorem shaped_start : (start mem mPoll).Shaped := ⟨by rintro m ⟨⟩, by rintro m ⟨⟩⟩

/-- Where the looper has no message there is nothing to show. -/
theorem shaped_of_polling (h : ∀ m, s.looper ≠ .dispatching m ∧ s.looper ≠ .recycling m) :
    s.Shaped :=
  ⟨fun m hm => absurd hm (h m).1, fun m hm => absurd hm (h m).2⟩

theorem Shaped.next (hstep : Step s (.next now) t) : t.Shaped := by
  obtain ⟨-, r, queue, hrun, rfl⟩ := step_next hstep
  rcases MessageQueue.nextLocked_cases hrun with ⟨-, rfl, -⟩ | ⟨b, q, -, -, hlive, hres⟩
  · exact shaped_of_polling fun m => ⟨by rintro ⟨⟩, by rintro ⟨⟩⟩
  · have hk := MessageQueue.nextLocked_keeps hrun b
    rcases hres with ⟨-, rfl, -⟩ | ⟨hle, rfl, -⟩
    · exact shaped_of_polling fun m => ⟨by rintro ⟨⟩, by rintro ⟨⟩⟩
    · have hstamp : queue.stamp b = s.queue.stamp b := hk.stamp
      refine ⟨?_, by rintro m ⟨⟩⟩
      rintro m ⟨⟩
      refine ⟨hk.live.trans hlive, s.log, now, ?_, ?_⟩
      · simp only [resume, hstamp]
      · simpa only [resume, hstamp] using hle

theorem Shaped.dispatch (h : s.Shaped) (hstep : Step s (.dispatch now) t) : t.Shaped := by
  obtain ⟨x, y, target, hpc, hx, -, rfl⟩ := step_dispatch hstep
  obtain ⟨-, l, n₁, hlog, hle⟩ := h.dispatching x hpc
  have hstamp : s.queue.stamp x = getWhen y.obj := stamp_some hx
  refine ⟨by rintro m ⟨⟩, ?_⟩
  rintro m ⟨⟩
  obtain ⟨hown, hcount⟩ := handled_consumeMessage x y.obj now
  refine ⟨l, s.queue.stamp x, n₁, target, now, consumeMessage x y.obj now, ?_, hle, hown, ?_⟩
  · simp [hlog, dispatchMessage]
  · rw [hstamp, hcount]

theorem Shaped.step (h : s.Shaped) (hstep : Step s a t) : t.Shaped := by
  rcases em (Act.ofLooper a) with ha | ha
  · cases a with
    | poll =>
      obtain ⟨-, -, mPoll, -, rfl⟩ := step_poll hstep
      exact shaped_of_polling fun m => ⟨by rintro ⟨⟩, by rintro ⟨⟩⟩
    | interrupt =>
      obtain ⟨-, rfl⟩ := step_interrupt hstep
      exact shaped_of_polling fun m => ⟨by rintro ⟨⟩, by rintro ⟨⟩⟩
    | next now => exact Shaped.next hstep
    | dispatch now => exact h.dispatch hstep
    | recycle =>
      obtain ⟨x, -, -, rfl⟩ := step_recycle hstep
      exact shaped_of_polling fun m => ⟨by rintro ⟨⟩, by rintro ⟨⟩⟩
    | _ => exact absurd ha id
  · obtain ⟨hpc, hlog⟩ := hstep.of_producer ha
    refine ⟨?_, ?_⟩
    · intro m hm
      rw [hpc] at hm
      obtain ⟨hlive, l, n₁, hl, hle⟩ := h.dispatching m hm
      have hk : KeepsAt s.queue.mem t.queue.mem m :=
        hstep.keeps hlive (by rintro rfl; exact absurd trivial ha)
      have hstamp : t.queue.stamp m = s.queue.stamp m := hk.stamp
      exact ⟨hk.live.trans hlive, l, n₁, by rw [hlog, hl, hstamp], by rwa [hstamp]⟩
    · intro m hm
      rw [hpc] at hm
      simpa only [hlog] using h.recycling m hm

theorem Shaped.pre (hrun : Runs mem mPoll tr s) {x : Taken Sys Act} (hx : x ∈ tr) :
    x.pre.Shaped :=
  hrun.invariant_pre shaped_start (fun _ _ hstep h => h.step hstep) hx

/-- The message to recycle was returned at the reading `n₁` with the stamp `g` and dispatched at the
    reading `n₂`, and since then its handler did `hs`. -/
def Delivered (s : Sys) (m : Addr) (g n₁ : ℤ) (target : Target) (n₂ : ℤ) (hs : List Event) : Prop :=
  s.looper = .recycling m ∧
    (∃ l, s.log = l ++ .returned m g n₁ :: .dispatched m target n₂ :: hs) ∧
    ∀ e ∈ hs, e = .handled m ∨ e = .notified

/-- What is recycled was returned and dispatched before, and handled if the second reading was after
    its stamp. -/
theorem recycle_delivered (hrun : Runs mem mPoll tr s) {x : Taken Sys Act} (hx : x ∈ tr)
    (hact : x.act = .recycle) :
    ∃ m g n₁ target n₂ hs, x.pre.Delivered m g n₁ target n₂ hs ∧
      x.post.log = x.pre.log ++ [.recycled m] ∧ g ≤ n₁ ∧
      hs.count (.handled m) = if g < n₂ then 1 else 0 := by
  obtain ⟨m, hpc, -, hpost⟩ := step_recycle (hact ▸ hrun.step_of_mem hx)
  obtain ⟨l, g, n₁, target, n₂, hs, hlog, hle, hown, hcount⟩ :=
    (Shaped.pre hrun hx).recycling m hpc
  exact ⟨m, g, n₁, target, n₂, hs, ⟨hpc, ⟨l, hlog⟩, hown⟩, congrArg log hpost, hle, hcount⟩

/-- In every run, every recycled message was returned and dispatched before. If the clock did not go
    back between the two, its handler was called exactly once in between unless both readings were
    its stamp. -/
theorem handled_iff (hrun : Runs mem mPoll tr s) :
    ∀ x ∈ tr, x.act = .recycle → ∃ m g n₁ target n₂ hs, x.pre.Delivered m g n₁ target n₂ hs ∧
      (n₁ ≤ n₂ → (hs.count (.handled m) = 1 ↔ ¬(n₁ = g ∧ n₂ = g))) := by
  intro x hx hact
  obtain ⟨m, g, n₁, target, n₂, hs, hdel, -, hle, hcount⟩ := recycle_delivered hrun hx hact
  refine ⟨m, g, n₁, target, n₂, hs, hdel, ?_⟩
  intro hclock
  rw [hcount]
  rcases lt_or_ge g n₂ with hlt | hge
  · simp only [hlt, if_true, true_iff]
    omega
  · rw [if_neg (not_lt.mpr hge)]
    omega

/-- A message stamped 1, returned at 1 and dispatched at 2, is handled. -/
theorem handled_run : ∃ tr s, Runs twoMessages pipe tr s ∧
    s.log = [.returned 0 1 1, .dispatched 0 0 2, .handled 0, .notified, .recycled 0] ∧
    ∀ x ∈ tr, x.act = .recycle → ∃ m g n₁ target n₂ hs, x.pre.Delivered m g n₁ target n₂ hs ∧
      (n₁ ≤ n₂ → (hs.count (.handled m) = 1 ↔ ¬(n₁ = g ∧ n₂ = g))) := by
  have h₀ : Runs twoMessages pipe [] _ := Run.nil
  have h₁ := h₀.snoc (a := Act.enqueue 0 0 5) ⟨rfl, 1, rfl⟩
  have h₂ := h₁.snoc (a := Act.wake 0) ⟨rfl, 0, rfl⟩
  have h₃ := h₂.snoc (a := Act.poll) ⟨⟨⟨_, rfl⟩, by decide⟩, 1, rfl⟩
  have h₄ := h₃.snoc (a := Act.next 1) ⟨rfl, 0, rfl⟩
  have h₅ := h₄.snoc (a := Act.dispatch 2) ⟨⟨_, rfl⟩, 0, rfl⟩
  have h₆ := h₅.snoc (a := Act.recycle) ⟨⟨_, rfl⟩, 0, rfl⟩
  exact ⟨_, _, h₆, rfl, handled_iff h₆⟩

/-- A message stamped 1, returned and dispatched at 1, is recycled and was never handled. -/
theorem recycled_unhandled : ∃ tr s, Runs twoMessages pipe tr s ∧
    tr.map Taken.act = [.enqueue 0 0 5, .wake 0, .poll, .next 1, .dispatch 1, .recycle] ∧
    s.log = [.returned 0 1 1, .dispatched 0 0 1, .recycled 0] ∧ .handled 0 ∉ s.log := by
  have h₀ : Runs twoMessages pipe [] _ := Run.nil
  have h₁ := h₀.snoc (a := Act.enqueue 0 0 5) ⟨rfl, 1, rfl⟩
  have h₂ := h₁.snoc (a := Act.wake 0) ⟨rfl, 0, rfl⟩
  have h₃ := h₂.snoc (a := Act.poll) ⟨⟨⟨_, rfl⟩, by decide⟩, 1, rfl⟩
  have h₄ := h₃.snoc (a := Act.next 1) ⟨rfl, 0, rfl⟩
  have h₅ := h₄.snoc (a := Act.dispatch 1) ⟨⟨_, rfl⟩, 0, rfl⟩
  have h₆ := h₅.snoc (a := Act.recycle) ⟨⟨_, rfl⟩, 0, rfl⟩
  exact ⟨_, _, h₆, rfl, rfl, by decide⟩

end Sys

end ThreadManager
