import ThreadManager.Poll.Association

/-! Who destroys a `Poll`.

    The queue that a Poll was created for destroys it, and the end of a thread destroys what is in the
    thread's slot. Since that is a temporary that is gone already, the end of a thread that has
    constructed a queue destroys it again, and a second queue on the thread gets it as its `mPoll`.
    A run in which neither happens destroys every Poll at most once, from whatever thread the queues
    are deleted. -/

namespace ThreadManager
open Schemes

namespace Polls

variable {s s' : Polls} {a : PollsAct} {t q b : ℕ} {p : Ptr}
  {tr : List (Taken Polls PollsAct)}

/-- No Poll is destroyed twice, and the `mPoll` of a queue alive is alive. -/
structure Owned (s : Polls) : Prop where
  once : s.destroyed.Nodup
  alive : ∀ q p, s.queues q = some p → ∃ a, p = some a ∧ (s.polls a).isSome

/-- If the step constructs a queue on a thread or ends a thread, nothing is in the thread's slot. -/
def SlotEmpty (x : Taken Polls PollsAct) : Prop :=
  match x.act with
  | .newQueue t _ => x.pre.gTLSKey t = none
  | .threadExit t => x.pre.gTLSKey t = none
  | _ => True

theorem owned_start : start.Owned := ⟨List.nodup_nil, nofun⟩

/-- What is destroyed next must not have been destroyed. -/
theorem nodup_destroy (h : s.destroyed.Nodup) :
    (s.destroy (some b)).destroyed.Nodup ↔ b ∉ s.destroyed := by
  rw [destroy, List.nodup_append]
  constructor
  · rintro ⟨-, -, hne⟩ hb
    exact hne b hb b (List.mem_singleton_self _) rfl
  · intro hb
    refine ⟨h, List.nodup_singleton _, fun c hc d hd heq => hb ?_⟩
    obtain rfl := List.mem_singleton.mp hd
    exact heq ▸ hc

/-- A call on a thread with an empty slot destroys its temporary and nothing else. -/
theorem Owned.getOrCreate (h : s.Owned) (hk : s.Kept) (hslot : s.gTLSKey t = none) (allow : Bool) :
    ∃ s', s.getOrCreate t allow = (some s.next, s') ∧ s'.Owned ∧ (s'.polls s.next).isSome := by
  refine ⟨_, getOrCreate_none hslot, ⟨?_, ?_⟩, ?_⟩
  · refine (nodup_destroy (b := s.next + 1) h.once).mpr ?_
    intro hmem
    have := hk.old _ hmem
    omega
  · intro q p hq
    obtain ⟨a, rfl, ha⟩ := h.alive q p hq
    have hlt : a < s.next := ((hk.alive a).mp ha).1
    have hne₁ : a ≠ s.next + 1 := (hlt.trans (Nat.lt_succ_self _)).ne
    exact ⟨a, rfl, by simpa [Heap.alloc, hne₁, hlt.ne] using ha⟩
  · simp [Heap.alloc]

theorem Owned.newQueue_iff (h : s.Owned) (hk : s.Kept) :
    (record t (s.newQueue t q)).Owned ↔ s.gTLSKey t = none := by
  cases hslot : s.gTLSKey t with
  | none =>
    obtain ⟨s₁, heq, hown, hnext⟩ := h.getOrCreate hk hslot false
    simp only [record, newQueue, heq, iff_true]
    refine ⟨hown.once, ?_⟩
    intro r p hr
    rcases eq_or_ne r q with rfl | hne
    · simp only [Function.update_self, Option.some.injEq] at hr
      exact ⟨_, hr.symm, hnext⟩
    · simp only [Function.update_of_ne hne] at hr
      exact hown.alive r p hr
  | some b =>
    -- the new queue has the Poll in the slot, which is gone
    refine iff_of_false ?_ (Option.some_ne_none b)
    intro hown
    obtain ⟨a, ha, halive⟩ := hown.alive q (some b) (by simp [record, newQueue, getOrCreate_some hslot])
    obtain rfl := Option.some.inj ha
    simp only [record, newQueue, getOrCreate_some hslot] at halive
    exact ((hk.alive b).mp halive).2 (hk.slot t b hslot)

/-- The Poll of a queue alive is destroyed with it, and is no other queue's. -/
theorem Owned.deleteQueue (h : s.Owned) (hk : s.Kept) : (s.deleteQueue q).Owned := by
  cases hq : s.queues q with
  | none => simpa [Polls.deleteQueue, hq] using h
  | some p =>
    obtain ⟨a, rfl, ha⟩ := h.alive q p hq
    have hmem := ((hk.alive a).mp ha).2
    simp only [Polls.deleteQueue, hq]
    refine ⟨(nodup_destroy h.once).mpr hmem, ?_⟩
    intro r p hr
    rcases eq_or_ne r q with rfl | hne
    · simp at hr
    · simp only [Function.update_of_ne hne] at hr
      obtain ⟨c, rfl, hc⟩ := h.alive r p hr
      have hca : c ≠ a := by
        rintro rfl
        exact ((hk.shared r q c hr hq).resolve_right hmem |> hne)
      exact ⟨c, rfl, by simpa [destroy, hca] using hc⟩

theorem Owned.threadExit_iff (h : s.Owned) (hk : s.Kept) :
    (s.threadExit t).Owned ↔ s.gTLSKey t = none := by
  cases hslot : s.gTLSKey t with
  | none =>
    simp only [threadExit, hslot, destroy, iff_true]
    exact ⟨h.once, h.alive⟩
  | some b =>
    refine iff_of_false ?_ (Option.some_ne_none b)
    intro hown
    have honce := hown.once
    simp only [threadExit, hslot] at honce
    exact (nodup_destroy h.once).mp honce (hk.slot t b hslot)

/-- One step is enough to tell. -/
theorem Owned.step_iff (h : s.Owned) (hk : s.Kept) (hstep : Step s a s') :
    s'.Owned ↔ SlotEmpty ⟨s, a, s'⟩ := by
  obtain ⟨-, hexec⟩ := hstep
  cases a with
  | prepare t opts =>
    obtain ⟨r, hr, hs'⟩ := Outcome.bind_eq_done.mp hexec
    obtain rfl := Outcome.done.inj hs'
    obtain ⟨hslot, allow, rfl⟩ := hk.prepare_done hr
    obtain ⟨s₁, heq, hown, -⟩ := h.getOrCreate hk hslot allow
    rw [heq]
    exact iff_of_true ⟨hown.once, hown.alive⟩ trivial
  | newQueue t q =>
    obtain rfl := Outcome.done.inj hexec
    exact h.newQueue_iff hk
  | deleteQueue q =>
    obtain rfl := Outcome.done.inj hexec
    exact iff_of_true (h.deleteQueue hk) trivial
  | threadExit t =>
    obtain rfl := Outcome.done.inj hexec
    exact h.threadExit_iff hk

/-- A slot is filled by a call of its thread and then stays filled. -/
theorem slot_step (hk : s.Kept) (hstep : Step s a s') (hempty : SlotEmpty ⟨s, a, s'⟩) :
    s'.gTLSKey t = none ↔ s.gTLSKey t = none ∧ a.user ≠ some t := by
  have huse : ∀ u allow, s.gTLSKey u = none →
      ((s.getOrCreate u allow).2.gTLSKey t = none ↔ s.gTLSKey t = none ∧ some u ≠ some t) := by
    intro u allow hslot
    rw [getOrCreate_none hslot]
    rcases eq_or_ne t u with rfl | hne
    · simp
    · simp [hne, hne.symm]
  obtain ⟨-, hexec⟩ := hstep
  cases a with
  | prepare u opts =>
    obtain ⟨r, hr, hs'⟩ := Outcome.bind_eq_done.mp hexec
    obtain rfl := Outcome.done.inj hs'
    obtain ⟨hslot, allow, rfl⟩ := hk.prepare_done hr
    exact huse u allow hslot
  | newQueue u q =>
    obtain rfl := Outcome.done.inj hexec
    exact huse u false hempty
  | deleteQueue q =>
    obtain rfl := Outcome.done.inj hexec
    cases hq : s.queues q with
    | none => simp [deleteQueue, hq, PollsAct.user]
    | some p => cases p <;> simp [deleteQueue, hq, destroy, PollsAct.user]
  | threadExit u =>
    obtain rfl := Outcome.done.inj hexec
    have hslot : s.gTLSKey u = none := hempty
    rcases eq_or_ne t u with rfl | hne
    · simp [threadExit, hslot, PollsAct.user]
    · simp [threadExit, hne, PollsAct.user]

/-- As long as every slot was empty when it mattered, a slot is empty if its thread made no call. -/
theorem slot_eq_none_iff (hrun : Runs tr s) (hempty : ∀ x ∈ tr, SlotEmpty x) :
    s.gTLSKey t = none ↔ ∀ x ∈ tr, x.act.user ≠ some t := by
  induction hrun with
  | nil => simp [start]
  | snoc hr hstep ih =>
    obtain ⟨hbefore, hlast⟩ := List.forall_mem_append.mp hempty
    rw [slot_step (Kept.of_run hr) hstep (hlast _ (List.mem_singleton_self _)), ih hbefore,
      List.forall_mem_append, List.forall_mem_singleton]

/-- Every Poll is destroyed at most once and the `mPoll` of every queue alive is alive, in every
    state of a run, exactly when no queue is constructed and no thread ends with a filled slot. -/
theorem owned_when (hrun : Runs tr s) : (∀ x ∈ tr, x.post.Owned) ↔ ∀ x ∈ tr, SlotEmpty x := by
  refine hrun.forall_post_iff owned_start ?_
  intro x hx hpre
  obtain ⟨hstep, tr', hbefore, -⟩ := hrun.before hx
  exact hpre.step_iff (Kept.of_run hbefore) hstep

/-- Two threads construct a queue each, and both queues are deleted. -/
theorem owned_when_two_queues : ∃ tr s, Runs tr s ∧
    tr.map Taken.act = [.newQueue 0 0, .newQueue 1 1, .deleteQueue 1, .deleteQueue 0] ∧
    s.destroyed = [1, 3, 2, 0] ∧ ∀ x ∈ tr, x.post.Owned := by
  have h₀ : Runs [] start := Run.nil
  have h₁ := h₀.snoc (a := PollsAct.newQueue 0 0) ⟨rfl, rfl⟩
  have h₂ := h₁.snoc (a := PollsAct.newQueue 1 1) ⟨rfl, rfl⟩
  have h₃ := h₂.snoc (a := PollsAct.deleteQueue 1) ⟨rfl, rfl⟩
  have h₄ := h₃.snoc (a := PollsAct.deleteQueue 0) ⟨rfl, rfl⟩
  refine ⟨_, _, h₄, rfl, rfl, (owned_when h₄).mpr ?_⟩
  simp only [List.forall_mem_append, List.forall_mem_singleton]
  exact ⟨⟨⟨⟨nofun, rfl⟩, rfl⟩, trivial⟩, trivial⟩

/-- A thread constructs a queue and ends: the temporary is destroyed again. -/
theorem owned_threadExit : ∃ tr s, Runs tr s ∧
    tr.map Taken.act = [.newQueue 0 0, .threadExit 0] ∧ s.destroyed = [1, 1] ∧ ¬s.Owned := by
  have h₀ : Runs [] start := Run.nil
  have h₁ := h₀.snoc (a := PollsAct.newQueue 0 0) ⟨rfl, rfl⟩
  have h₂ := h₁.snoc (a := PollsAct.threadExit 0) ⟨trivial, rfl⟩
  refine ⟨_, _, h₂, rfl, rfl, ?_⟩
  intro h
  exact absurd h.once (by decide)

end Polls

end ThreadManager
