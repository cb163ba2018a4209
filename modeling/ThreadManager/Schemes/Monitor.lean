import ThreadManager.Schemes.Transition

/-! Threads asleep on the condition variable of a monitor.

    Over a step relation for the sections under a lock, `Monitor` keeps which threads are asleep; a
    section puts one to sleep or wakes all, and any may wake for no reason. `NoLost P` says that threads
    are asleep only while `P` holds, the condition whose end they wait for. It is kept if threads go to
    sleep while `P` holds only and if `P` ends with a broadcast only, and then, with `P` at an end, no
    thread is asleep that has to be woken first. Without the sleepers a run is one of the
    sections. -/

namespace Schemes

variable {σ α ι : Type*}

/-- What a section does to the sleepers. -/
inductive Signal (ι : Type*) where
  | none
  | sleep (c : ι)
  | wake (c : ι)
  | broadcast
  deriving DecidableEq, Repr

/-- A state, and who is asleep. -/
structure Monitor (σ ι : Type*) where
  shared : σ
  asleep : ι → Bool

/-- A section, or a wake-up for no reason. -/
inductive MonitorAct (α ι : Type*) where
  | locked (a : α)
  | spurious (c : ι)
  deriving DecidableEq, Repr

def MonitorAct.label : MonitorAct α ι → Option α
  | .locked a => some a
  | .spurious _ => none

def Signal.apply [DecidableEq ι] (asleep : ι → Bool) : Signal ι → ι → Bool
  | .none => asleep
  | .sleep c => Function.update asleep c true
  | .wake c => Function.update asleep c false
  | .broadcast => fun _ => false

namespace Monitor

/-- All are awake. -/
def start (s : σ) : Monitor σ ι := ⟨s, fun _ => false⟩

/-- Threads are asleep only while `P` holds. -/
def NoLost (P : σ → Prop) (m : Monitor σ ι) : Prop := ∀ c, m.asleep c = true → P m.shared

theorem noLost_start {P : σ → Prop} (s : σ) : (start s : Monitor σ ι).NoLost P := by
  intro c hc
  cases hc

variable [DecidableEq ι]

/-- The state after a section. -/
def after (m : Monitor σ ι) (t : σ) (sig : Signal ι) : Monitor σ ι := ⟨t, sig.apply m.asleep⟩

/-- A section of a thread that is in a wait, `retests a = some c`, needs `c` to be awake. -/
def Step (step : σ → α → σ → Prop) (signal : σ → α → Signal ι) (retests : α → Option ι)
    (m : Monitor σ ι) (a : MonitorAct α ι) (n : Monitor σ ι) : Prop :=
  match a with
  | .locked a => step m.shared a n.shared ∧ (∀ c, retests a = some c → m.asleep c = false) ∧
    n = m.after n.shared (signal m.shared a)
  | .spurious c => n = m.after m.shared (.wake c)

variable {step : σ → α → σ → Prop} {signal : σ → α → Signal ι} {retests : α → Option ι}
  {P : σ → Prop} {m n : Monitor σ ι} {t : σ} {sig : Signal ι} {c : ι}
  {tr : List (Taken (Monitor σ ι) (MonitorAct α ι))}

/-- Who is asleep after a section was so before, or is put to sleep by it. -/
theorem asleep_after (h : (m.after t sig).asleep c = true) :
    sig = .sleep c ∨ sig ≠ .broadcast ∧ m.asleep c = true := by
  cases sig with
  | none => exact Or.inr ⟨nofun, h⟩
  | sleep d =>
    by_cases hd : c = d
    · exact Or.inl (hd ▸ rfl)
    · exact Or.inr ⟨nofun, (Function.update_of_ne hd _ _).symm.trans h⟩
  | wake d =>
    by_cases hd : c = d
    · subst hd
      cases (Function.update_self _ _ _).symm.trans h
    · exact Or.inr ⟨nofun, (Function.update_of_ne hd _ _).symm.trans h⟩
  | broadcast => cases h

theorem NoLost.after (h : m.NoLost P) (hsleep : ∀ c, sig = .sleep c → P t)
    (hend : sig ≠ .broadcast → P m.shared → P t) : (m.after t sig).NoLost P := by
  intro c hc
  rcases asleep_after hc with hsig | ⟨hsig, hc⟩
  · exact hsleep c hsig
  · exact hend hsig (h c hc)

theorem NoLost.of_step {a : MonitorAct α ι} (h : m.NoLost P) (hstep : Step step signal retests m a n)
    (hsleep : ∀ s a t c, step s a t → signal s a = .sleep c → P t)
    (hend : ∀ s a t, step s a t → signal s a ≠ .broadcast → P s → P t) : n.NoLost P := by
  cases a with
  | locked a =>
    obtain ⟨hst, -, hn⟩ := hstep
    rw [hn]
    exact h.after (fun c => hsleep _ _ _ c hst) (hend _ _ _ hst)
  | spurious c =>
    obtain rfl := hstep
    exact h.after nofun fun _ hp => hp

/-- The sections of a run are a run. -/
theorem run_shared (hrun : Run (Step step signal retests) m tr n) :
    ∃ tr', Run step m.shared tr' n.shared ∧
      tr'.map Taken.act = tr.filterMap fun x => x.act.label := by
  have hsim : ∀ x ∈ tr, Step step signal retests x.pre x.act x.post → ∀ t, t = x.pre.shared →
      Matched step (fun (m : Monitor σ ι) t => t = m.shared) x.post t x.act.label := by
    rintro ⟨m, a, n⟩ - hst t rfl
    cases a with
    | locked a => exact ⟨n.shared, hst.1, rfl⟩
    | spurious c =>
      change n = m.after m.shared (.wake c) at hst
      rw [hst]
      rfl
  obtain ⟨tr', t, hrun', hacts, rfl⟩ := hrun.simulate (R := fun (m : Monitor σ ι) t => t = m.shared)
    (fun x => x.act.label) rfl hsim
  exact ⟨tr', hrun', hacts⟩

end Monitor

end Schemes
