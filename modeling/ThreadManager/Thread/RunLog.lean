import ThreadManager.Thread.LifeCycle

/-! What a run reports, as a grammar.

    The events of one run, in order, are a sequence of iterations: `readyToRun` is called and
    returns, then `threadLoop` is called if that returned NO_ERROR and no exit was requested. The last
    iteration is cut off where the child is, or closed by the end of the run. So `readyToRun` is
    called once in each iteration, and the run initialises once exactly as long as it has only one. -/

namespace ThreadManager
open Schemes

/-- The run it is an event of. -/
def ThreadEvent.ofRun : ThreadEvent → Option ℕ
  | .readyToRun k => some k
  | .readyToRunReturned k _ => some k
  | .threadLoop k => some k
  | .iterated k => some k
  | .ended k _ => some k
  | .failed k => some k
  | .waited _ _ _ => none

/-- What happened in run `k`, in order. -/
def eventsOf (k : ℕ) (l : List ThreadEvent) : List ThreadEvent := l.filter (·.ofRun = some k)

/-- One iteration of run `k` up to its last section, with what `readyToRun` returned. -/
inductive Iteration (k : ℕ) : Status → List ThreadEvent → Prop
  | notLooped (status) : Iteration k status [.readyToRun k, .readyToRunReturned k status]
  | looped : Iteration k noError
      [.readyToRun k, .readyToRunReturned k noError, .threadLoop k]

/-- Iterations of run `k` that were not the last one. -/
inductive Iterations (k : ℕ) : List ThreadEvent → Prop
  | nil : Iterations k []
  | snoc {l l' status} : Iterations k l → Iteration k status l' →
      Iterations k (l ++ l' ++ [.iterated k])

/-- What run `k` has reported when its child is there and `mStatus` is this. -/
inductive Reported (k : ℕ) (mStatus : Status) : Option ChildPc → List ThreadEvent → Prop
  | notStarted : Reported k mStatus none []
  | failed : Reported k mStatus none [.failed k]
  | top {l} : Iterations k l → Reported k mStatus (some .top) l
  | inReadyToRun {l} : Iterations k l →
      Reported k mStatus (some .inReadyToRun) (l ++ [.readyToRun k])
  | readyToRunReturned {l} : Iterations k l → Reported k mStatus (some .readyToRunReturned)
      (l ++ [.readyToRun k, .readyToRunReturned k mStatus])
  | testingExit {l} : Iterations k l → mStatus = noError → Reported k mStatus (some .testingExit)
      (l ++ [.readyToRun k, .readyToRunReturned k mStatus])
  | callingThreadLoop {l} : Iterations k l → mStatus = noError →
      Reported k mStatus (some .callingThreadLoop)
        (l ++ [.readyToRun k, .readyToRunReturned k mStatus])
  | inThreadLoop {l} : Iterations k l → mStatus = noError → Reported k mStatus (some .inThreadLoop)
      (l ++ [.readyToRun k, .readyToRunReturned k mStatus, .threadLoop k])
  | closing {l l' result} : Iterations k l → Iteration k mStatus l' →
      Reported k mStatus (some (.closing result)) (l ++ l')
  | exited {l l' status} : Iterations k l → Iteration k status l' →
      Reported k mStatus (some .exited) (l ++ l' ++ [.ended k status])
  | gone {l l' status} : Iterations k l → Iteration k status l' →
      Reported k mStatus none (l ++ l' ++ [.ended k status])

theorem eventsOf_append {k : ℕ} {l l' : List ThreadEvent} :
    eventsOf k (l ++ l') = eventsOf k l ++ eventsOf k l' := List.filter_append ..

theorem eventsOf_eq_self {k : ℕ} {l : List ThreadEvent} (h : ∀ e ∈ l, e.ofRun = some k) :
    eventsOf k l = l := by
  refine List.filter_eq_self.mpr ?_
  intro e he
  simpa using h e he

theorem eventsOf_eq_nil {k : ℕ} {l : List ThreadEvent} (h : ∀ e ∈ l, e.ofRun ≠ some k) :
    eventsOf k l = [] := by
  refine List.filter_eq_nil_iff.mpr ?_
  intro e he
  simpa using h e he

/-- Only an active child depends on `mStatus`. -/
theorem Reported.congr {k : ℕ} {m m' : Status} {pc : Option ChildPc} {l : List ThreadEvent}
    (h : Reported k m pc l) (hpc : ∀ p, pc = some p → p = .exited) : Reported k m' pc l := by
  cases h with
  | notStarted => exact .notStarted
  | failed => exact .failed
  | exited h hi => exact .exited h hi
  | gone h hi => exact .gone h hi
  | _ => cases hpc _ rfl

/-! ### One-time initialisation -/

/-- What happened in run `k` is what one-time initialisation allows: `readyToRun` is called once, and
    it has been if the run is over; before `threadLoop` is called it returned NO_ERROR, and nothing
    else if `threadLoop` is called at all. -/
structure InitOnce (k : ℕ) (l : List ThreadEvent) : Prop where
  once : l.count (.readyToRun k) ≤ 1
  called : ∀ status, .ended k status ∈ l → l.count (.readyToRun k) = 1
  before : .threadLoop k ∈ l → .readyToRunReturned k noError ∈ l.takeWhile (· ≠ .threadLoop k)
  failed : ∀ status, .readyToRunReturned k status ∈ l → .threadLoop k ∈ l → status = noError

section Init
variable {k : ℕ} {status m : Status} {pc : Option ChildPc} {l : List ThreadEvent}

theorem Iteration.initOnce (h : Iteration k status l) : InitOnce k l := by
  cases h with
  | notLooped => exact ⟨by simp, by simp, by simp, by simp⟩
  | looped => exact ⟨by simp, by simp, by simp, by simp⟩

theorem Iteration.initOnce_ended (h : Iteration k status l) :
    InitOnce k (l ++ [.ended k status]) := by
  cases h with
  | notLooped => exact ⟨by simp, by simp, by simp, by simp⟩
  | looped => exact ⟨by simp, by simp, by simp, by simp⟩

theorem Iteration.count_readyToRun (h : Iteration k status l) : l.count (.readyToRun k) = 1 := by
  cases h <;> simp

theorem Iteration.not_mem_iterated (h : Iteration k status l) : .iterated k ∉ l := by
  cases h <;> simp

theorem Iterations.eq_nil (h : Iterations k l) (hno : .iterated k ∉ l) : l = [] := by
  cases h with
  | nil => rfl
  | snoc h hi => simp at hno

theorem Iterations.one_le (h : Iterations k l) (hmem : .iterated k ∈ l) :
    1 ≤ l.count (.readyToRun k) := by
  cases h with
  | nil => simp at hmem
  | snoc h hi =>
    simp only [List.count_append, hi.count_readyToRun]
    omega

/-- Below the top of the loop `readyToRun` has been called once since the last full iteration. -/
theorem Reported.current (h : Reported k m pc l) (hpc : pc ≠ some .top) :
    .iterated k ∉ l ∨ ∃ l₁ l₂, l = l₁ ++ l₂ ∧ Iterations k l₁ ∧ .iterated k ∉ l₂ ∧
      l₂.count (.readyToRun k) = 1 := by
  cases h with
  | notStarted => exact Or.inl (by simp)
  | failed => exact Or.inl (by simp)
  | top hi => exact absurd rfl hpc
  | inReadyToRun hi => exact Or.inr ⟨_, _, rfl, hi, by simp, by simp⟩
  | readyToRunReturned hi => exact Or.inr ⟨_, _, rfl, hi, by simp, by simp⟩
  | testingExit hi _ => exact Or.inr ⟨_, _, rfl, hi, by simp, by simp⟩
  | callingThreadLoop hi _ => exact Or.inr ⟨_, _, rfl, hi, by simp, by simp⟩
  | inThreadLoop hi _ => exact Or.inr ⟨_, _, rfl, hi, by simp, by simp⟩
  | closing hi hl => exact Or.inr ⟨_, _, rfl, hi, hl.not_mem_iterated, hl.count_readyToRun⟩
  | exited hi hl =>
    exact Or.inr ⟨_, _, List.append_assoc .., hi, by simp [hl.not_mem_iterated],
      by simp [hl.count_readyToRun]⟩
  | gone hi hl =>
    exact Or.inr ⟨_, _, List.append_assoc .., hi, by simp [hl.not_mem_iterated],
      by simp [hl.count_readyToRun]⟩

/-- A later iteration calls `readyToRun` again. -/
theorem Reported.two_le (h : Reported k m pc l) (hmem : .iterated k ∈ l) (hpc : pc ≠ some .top) :
    2 ≤ l.count (.readyToRun k) := by
  rcases h.current hpc with hno | ⟨l₁, l₂, rfl, hi, hno, hone⟩
  · exact absurd hmem hno
  · have hfirst := hi.one_le ((List.mem_append.mp hmem).resolve_right hno)
    rw [List.count_append]
    omega

/-- With one iteration there is one initialisation. -/
theorem Reported.initOnce (h : Reported k m pc l) (hno : .iterated k ∉ l) : InitOnce k l := by
  cases h with
  | notStarted => exact ⟨by simp, by simp, by simp, by simp⟩
  | failed => exact ⟨by simp, by simp, by simp, by simp⟩
  | top hi =>
    obtain rfl := hi.eq_nil hno
    exact ⟨by simp, by simp, by simp, by simp⟩
  | inReadyToRun hi =>
    obtain rfl := hi.eq_nil fun h => hno (List.mem_append_left _ h)
    exact ⟨by simp, by simp, by simp, by simp⟩
  | readyToRunReturned hi =>
    obtain rfl := hi.eq_nil fun h => hno (List.mem_append_left _ h)
    exact (Iteration.notLooped m).initOnce
  | testingExit hi hm =>
    obtain rfl := hi.eq_nil fun h => hno (List.mem_append_left _ h)
    exact (Iteration.notLooped m).initOnce
  | callingThreadLoop hi hm =>
    obtain rfl := hi.eq_nil fun h => hno (List.mem_append_left _ h)
    exact (Iteration.notLooped m).initOnce
  | inThreadLoop hi hm =>
    obtain rfl := hi.eq_nil fun h => hno (List.mem_append_left _ h)
    rw [hm]
    exact Iteration.looped.initOnce
  | closing hi hl =>
    obtain rfl := hi.eq_nil fun h => hno (List.mem_append_left _ h)
    exact hl.initOnce
  | exited hi hl =>
    obtain rfl := hi.eq_nil fun h => hno (by simp [h])
    exact hl.initOnce_ended
  | gone hi hl =>
    obtain rfl := hi.eq_nil fun h => hno (by simp [h])
    exact hl.initOnce_ended

end Init

/-! ### The steps -/

/-- A move of the child adds what the grammar says. -/
theorem Reported.moves {s : ThreadSys} {k : ℕ} {b : ChildAct} {pc pc' : ChildPc} {status : Status}
    {l es : List ThreadEvent} (h : Reported k s.thread.mStatus (some pc) l)
    (hm : s.Moves k b pc pc' status es) : Reported k status (some pc') (l ++ es) := by
  cases hm with
  | callReadyToRun =>
    cases h with
    | top hi => exact .inReadyToRun hi
  | readyToRunReturns status =>
    cases h with
    | inReadyToRun hi =>
      rw [List.append_assoc]
      exact .readyToRunReturned hi
  | ready hm =>
    cases h with
    | readyToRunReturned hi =>
      rw [List.append_nil]
      exact .testingExit hi hm
  | notReady hm =>
    cases h with
    | readyToRunReturned hi =>
      rw [List.append_nil]
      exact .closing hi (.notLooped _)
  | pending hp =>
    cases h with
    | testingExit hi hm =>
      rw [List.append_nil]
      exact .closing hi (.notLooped _)
  | notPending hp =>
    cases h with
    | testingExit hi hm =>
      rw [List.append_nil]
      exact .callingThreadLoop hi hm
  | callThreadLoop =>
    cases h with
    | callingThreadLoop hi hm =>
      rw [List.append_assoc]
      exact .inThreadLoop hi hm
  | threadLoopReturns result =>
    cases h with
    | inThreadLoop hi hm =>
      rw [List.append_nil]
      refine .closing hi ?_
      rw [hm]
      exact .looped

namespace ThreadSys

variable {s t : ThreadSys} {a : ThreadAct} {b : ChildAct} {c : Thr} {k j : ℕ} {o : Option ℕ}
  {status : Status} {pc pc' : ChildPc} {es l : List ThreadEvent} {created : Option ThreadId}
  {tr : List (Taken ThreadSys ThreadAct)}

/-- Every run has reported what the grammar says, and a run that is still to come nothing. -/
structure Recorded (s : ThreadSys) : Prop where
  reported : ∀ k, Reported k s.thread.mStatus (s.pc k) (eventsOf k s.log)
  later : ∀ k, s.runs < k → eventsOf k s.log = []

theorem recorded_start : start.Recorded := ⟨fun _ => .notStarted, fun _ _ => rfl⟩

/-- A step of child `k` that leaves `mStatus` alone unless the child is active. -/
theorem Recorded.child_step (h : s.Recorded) (hl : s.LifeCycle) (hk : k ≤ s.runs)
    (hactive : s.Active k ∨ t.thread.mStatus = s.thread.mStatus) (hruns : t.runs = s.runs)
    (hpc : ∀ j, j ≠ k → t.pc j = s.pc j) (hlog : t.log = s.log ++ es)
    (hes : ∀ e ∈ es, e.ofRun = some k)
    (hreported : Reported k t.thread.mStatus (t.pc k) (eventsOf k s.log ++ es)) : t.Recorded := by
  have hother : ∀ j, j ≠ k → eventsOf j t.log = eventsOf j s.log := by
    intro j hj
    have hnil : eventsOf j es = [] := eventsOf_eq_nil fun e he => by
      rw [hes e he]
      simpa using hj.symm
    rw [hlog, eventsOf_append, hnil, List.append_nil]
  refine ⟨?_, ?_⟩
  · intro j
    rcases eq_or_ne j k with rfl | hne
    · rw [hlog, eventsOf_append, eventsOf_eq_self hes]
      exact hreported
    · rw [hpc j hne, hother j hne]
      rcases hactive with hact | hm
      · -- no child but `k` is active
        refine (h.reported j).congr ?_
        intro p hp
        by_contra hno
        exact hne ((hl.active j ⟨p, hp, hno⟩).1.trans (hl.active k hact).1.symm)
      · rw [hm]
        exact h.reported j
  · intro j hj
    rw [hruns] at hj
    rw [hother j (by omega)]
    exact h.later j hj

theorem Recorded.moves (h : s.Recorded) (hl : s.LifeCycle) (hstep : Step s (.child k b) t)
    (hb : b ≠ .close) (hb' : b ≠ .exit) : t.Recorded := by
  obtain ⟨pc, pc', status, es, hm, hpc, rfl⟩ := step_moves hstep hb hb'
  have hes : ∀ e ∈ es, e.ofRun = some k := by cases hm <;> simp [ThreadEvent.ofRun]
  refine h.child_step hl (hl.old k (by simp [hpc])) (Or.inl ⟨pc, hpc, hm.ne_exited.1⟩) rfl
    (fun j hj => Function.update_of_ne hj _ _) rfl hes ?_
  have hrep := h.reported k
  rw [hpc] at hrep
  simpa using hrep.moves hm

theorem Recorded.close (h : s.Recorded) (hl : s.LifeCycle) (hstep : Step s (.child k .close) t) :
    t.Recorded := by
  obtain ⟨result, hpc, hcase⟩ := step_close hstep
  have hk : k ≤ s.runs := hl.old k (by simp [hpc])
  have hrep := h.reported k
  rw [hpc] at hrep
  rcases hcase with ⟨-, rfl⟩ | ⟨-, -, rfl⟩
  · refine h.child_step hl hk (Or.inl ⟨_, hpc, nofun⟩) rfl
      (fun j hj => Function.update_of_ne hj _ _) rfl (List.forall_mem_singleton.mpr rfl) ?_
    simp only [goto, record, Function.update_self]
    generalize eventsOf k s.log = l at hrep
    cases hrep with
    | closing hi hl => exact .exited hi hl
  · refine h.child_step hl hk (Or.inl ⟨_, hpc, nofun⟩) rfl
      (fun j hj => Function.update_of_ne hj _ _) rfl (List.forall_mem_singleton.mpr rfl) ?_
    simp only [goto, record, Function.update_self]
    generalize eventsOf k s.log = l at hrep
    cases hrep with
    | closing hi hl => exact .top (hi.snoc hl)

theorem Recorded.exit (h : s.Recorded) (hl : s.LifeCycle) (hstep : Step s (.child k .exit) t) :
    t.Recorded := by
  obtain ⟨⟨-, pc, hpc, rfl⟩, rfl⟩ := hstep
  refine h.child_step hl (hl.old k (by simp [hpc])) (Or.inr rfl) rfl
    (fun j hj => Function.update_of_ne hj _ _) (List.append_nil _).symm nofun ?_
  have hrep := h.reported k
  rw [hpc] at hrep
  simp only [exec, child, Function.update_self, List.append_nil]
  generalize eventsOf k s.log = l at hrep
  cases hrep with
  | exited hi hl => exact .gone hi hl

/-- A run that is made, or is not, is the next one. -/
theorem Recorded.run (h : s.Recorded) (hl : s.LifeCycle) (hstep : Step s (.call c (.run created)) t) :
    t.Recorded := by
  have hnew : s.pc (s.runs + 1) = none := hl.pc_later (Nat.lt_succ_self _)
  have hnil := h.later _ (Nat.lt_succ_self s.runs)
  rcases step_run hstep with ⟨-, rfl⟩ | ⟨hr, rfl⟩ | ⟨hr, i, -, -, rfl⟩
  · exact h
  · have hone : ∀ k, k ≠ s.runs + 1 → eventsOf k [.failed (s.runs + 1)] = [] := by
      intro k hk
      refine eventsOf_eq_nil (List.forall_mem_singleton.mpr ?_)
      simpa [ThreadEvent.ofRun] using hk.symm
    refine ⟨?_, ?_⟩
    · intro k
      simp only [record, eventsOf_append]
      rcases eq_or_ne k (s.runs + 1) with rfl | hne
      · rw [hnil, hnew, eventsOf_eq_self (List.forall_mem_singleton.mpr rfl)]
        exact .failed
      · rw [hone k hne, List.append_nil]
        exact (h.reported k).congr fun p hp => hl.exited_of_idle hr hp
    · intro k hk
      simp only [record] at hk ⊢
      rw [eventsOf_append, hone k (by omega), List.append_nil]
      exact h.later k (by omega)
  · refine ⟨?_, ?_⟩
    · intro k
      rcases eq_or_ne k (s.runs + 1) with rfl | hne
      · simp only [goto, Function.update_self, hnil]
        exact .top .nil
      · simp only [goto, Function.update_of_ne hne]
        exact (h.reported k).congr fun p hp => hl.exited_of_idle hr hp
    · intro k hk
      simp only [goto] at hk ⊢
      exact h.later k (by omega)

theorem Recorded.step (h : s.Recorded) (hl : s.LifeCycle) (hstep : Step s a t) : t.Recorded := by
  rcases step_cases hstep with ⟨c, created, rfl⟩ | ⟨k, b, rfl⟩ | hcaller
  · exact h.run hl hstep
  · rcases b.close_or_exit_or with rfl | rfl | ⟨hclose, hexit⟩
    · exact h.close hl hstep
    · exact h.exit hl hstep
    · exact h.moves hl hstep hclose hexit
  · obtain ⟨ids, pending, waiting, es, rfl, -, hes⟩ := hcaller
    have hsame : ∀ k, eventsOf k (s.log ++ es) = eventsOf k s.log := by
      intro k
      have hnil : eventsOf k es = [] := eventsOf_eq_nil fun e he => by
        obtain ⟨_, _, rfl, -⟩ := hes e he
        nofun
      rw [eventsOf_append, hnil, List.append_nil]
    exact ⟨fun k => by simpa [hsame] using h.reported k,
      fun k hk => by simpa [hsame] using h.later k hk⟩

theorem Recorded.of_run (hrun : Runs tr s) : s.Recorded := by
  have h := hrun.invariant (I := fun s => s.LifeCycle ∧ s.Recorded)
    ⟨lifeCycle_start, recorded_start⟩ fun _ _ hstep h => ⟨h.1.step hstep, h.2.step h.1 hstep⟩
  exact h.2

/-! ### Initialisation in a run -/

/-- If the step is the section at the end of an iteration of run `k`, it ends the run: `result` is
    false or an exit is pending. -/
def EndsRun (k : ℕ) (x : Taken ThreadSys ThreadAct) : Prop :=
  x.act = .child k .close →
    x.pre.pc k = some (.closing false) ∨ x.pre.thread.mExitPending = true

theorem step_log (hstep : Step s a t) : ∃ es, t.log = s.log ++ es := by
  rcases step_cases hstep with ⟨c, created, rfl⟩ | ⟨k, b, rfl⟩ | hcaller
  · rcases step_run hstep with ⟨-, rfl⟩ | ⟨-, rfl⟩ | ⟨-, i, -, -, rfl⟩
    · exact ⟨[], (List.append_nil _).symm⟩
    · exact ⟨_, rfl⟩
    · exact ⟨[], (List.append_nil _).symm⟩
  · rcases b.close_or_exit_or with rfl | rfl | ⟨hclose, hexit⟩
    · obtain ⟨result, -, ⟨-, rfl⟩ | ⟨-, -, rfl⟩⟩ := step_close hstep
      · exact ⟨_, rfl⟩
      · exact ⟨_, rfl⟩
    · obtain ⟨-, rfl⟩ := hstep
      exact ⟨[], (List.append_nil _).symm⟩
    · obtain ⟨_, _, _, es, -, -, rfl⟩ := step_moves hstep hclose hexit
      exact ⟨es, rfl⟩
  · obtain ⟨_, _, _, es, rfl, -⟩ := hcaller
    exact ⟨es, rfl⟩

/-- Nothing that happened is forgotten. -/
theorem mem_log_step {e : ThreadEvent} (hstep : Step s a t) (he : e ∈ s.log) : e ∈ t.log := by
  obtain ⟨es, hes⟩ := step_log hstep
  rw [hes]
  exact List.mem_append_left _ he

/-- A run goes round the loop in that section only. -/
theorem iterated_step (hstep : Step s a t) (hno : .iterated k ∉ s.log)
    (hiter : .iterated k ∈ t.log) : ¬EndsRun k ⟨s, a, t⟩ := by
  rcases step_cases hstep with ⟨c, created, rfl⟩ | ⟨j, b, rfl⟩ | hcaller
  · rcases step_run hstep with ⟨-, rfl⟩ | ⟨-, rfl⟩ | ⟨-, i, -, -, rfl⟩
    · exact absurd hiter hno
    · simp [record, hno] at hiter
    · exact absurd hiter hno
  · rcases b.close_or_exit_or with rfl | rfl | ⟨hclose, hexit⟩
    · obtain ⟨result, hpc, ⟨-, rfl⟩ | ⟨rfl, hpend, rfl⟩⟩ := step_close hstep
      · simp [record, goto, hno] at hiter
      · simp only [goto, record, List.mem_append, hno, List.mem_singleton, false_or,
          ThreadEvent.iterated.injEq] at hiter
        subst hiter
        intro hends
        rcases hends rfl with hfalse | htrue
        · rw [hpc] at hfalse
          cases hfalse
        · rw [hpend] at htrue
          cases htrue
    · obtain ⟨-, rfl⟩ := hstep
      exact absurd hiter hno
    · obtain ⟨_, _, _, es, hm, -, rfl⟩ := step_moves hstep hclose hexit
      cases hm <;> simp [hno] at hiter
  · obtain ⟨_, _, _, es, rfl, -, hes⟩ := hcaller
    rcases List.mem_append.mp hiter with hold | hnew
    · exact absurd hold hno
    · obtain ⟨_, _, ⟨⟩, -⟩ := hes _ hnew

/-- A section that does not end the run goes round the loop. -/
theorem iterated_of_not_endsRun {x : Taken ThreadSys ThreadAct} (hstep : Step x.pre x.act x.post)
    (hx : ¬EndsRun k x) : .iterated k ∈ x.post.log := by
  simp only [EndsRun, Classical.not_imp, not_or] at hx
  obtain ⟨hact, hfalse, hpend⟩ := hx
  rw [hact] at hstep
  obtain ⟨result, hpc, ⟨hstop | hstop, -⟩ | ⟨-, -, hpost⟩⟩ := step_close hstep
  · rw [hstop] at hpc
    exact absurd hpc hfalse
  · exact absurd hstop hpend
  · simp [hpost, goto, record]

/-- A run whose first iteration is its last one initialises once; and only such a run does, once its
    child has left the top of the loop. -/
theorem init_once_when (hrun : Runs tr s) :
    ((∀ x ∈ tr, EndsRun k x) → InitOnce k (eventsOf k s.log)) ∧
    (s.pc k ≠ some .top → InitOnce k (eventsOf k s.log) → ∀ x ∈ tr, EndsRun k x) := by
  have hrep := (Recorded.of_run hrun).reported k
  have hmem : .iterated k ∈ eventsOf k s.log ↔ .iterated k ∈ s.log := by
    simp [eventsOf, ThreadEvent.ofRun]
  refine ⟨?_, ?_⟩
  · intro hall
    have hno : .iterated k ∉ s.log := by
      refine hrun.invariant (I := fun s => .iterated k ∉ s.log) (by simp [start]) ?_
      intro x hx hstep hno hiter
      exact iterated_step hstep hno hiter (hall x hx)
    exact hrep.initOnce (hmem.not.mpr hno)
  · intro htop honce x hx
    by_contra hends
    obtain ⟨tr', hrest, -⟩ := hrun.after hx
    have hiter := hrest.invariant (I := fun s => .iterated k ∈ s.log)
      (iterated_of_not_endsRun (hrun.step_of_mem hx) hends) fun _ _ => mem_log_step
    have htwo := hrep.two_le (hmem.mpr hiter) htop
    have hone := honce.once
    omega

/-- A `threadLoop` that returns false ends the run in its first iteration. -/
theorem init_once_when_false : ∃ tr s, Runs tr s ∧
    eventsOf 1 s.log = [.readyToRun 1, .readyToRunReturned 1 noError, .threadLoop 1,
      .ended 1 noError] ∧ InitOnce 1 (eventsOf 1 s.log) := by
  obtain ⟨tr, h₀, hno⟩ := runs_firstRun
  have h₁ := runs_childSteps h₀ 1 [.callReadyToRun, .readyToRunReturns noError, .readStatus,
    .exitPending, .callThreadLoop, .threadLoopReturns false] (by decide)
  have h₂ := h₁.snoc (a := ThreadAct.child 1 .close) ⟨by decide, rfl⟩
  refine ⟨_, _, h₂, by decide, (init_once_when h₂).1 ?_⟩
  simp only [List.forall_mem_append, List.forall_mem_singleton]
  refine ⟨⟨fun x hx hact => absurd hact ((hno x hx).1 1 .close), ?_⟩,
    fun _ => Or.inl rfl⟩
  intro x hx hact
  obtain ⟨b, hb, hact'⟩ := mem_childSteps hx
  rw [hact] at hact'
  cases hact'
  exact absurd hb (by decide)

/-- A `threadLoop` that returns true, with nobody asking for the exit, and `readyToRun` is called
    again. -/
theorem readyToRun_again : ∃ tr s, Runs tr s ∧
    eventsOf 1 s.log = [.readyToRun 1, .readyToRunReturned 1 noError, .threadLoop 1, .iterated 1,
      .readyToRun 1] ∧ ¬InitOnce 1 (eventsOf 1 s.log) := by
  obtain ⟨tr, h₀, -⟩ := runs_firstRun
  have h₁ := runs_childSteps h₀ 1 [.callReadyToRun, .readyToRunReturns noError, .readStatus,
    .exitPending, .callThreadLoop, .threadLoopReturns true, .close, .callReadyToRun] (by decide)
  refine ⟨_, _, h₁, by decide, ?_⟩
  intro honce
  exact absurd honce.once (by decide)

end ThreadSys

end ThreadManager
