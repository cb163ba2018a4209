import Mathlib.Tactic

/-! Runs of a labelled step relation.

    A run is recorded as the list of the steps it took, each with the state before it, its label
    and the state after it, so that "in every state" and "at every step" are statements about the
    members of that list. `Run.invariant` is the induction over a run; `Run.forall_post_iff` turns
    a condition that is exact for one step into one that is exact for a whole run; `Run.simulate`
    carries a simulation of the steps to runs. -/

namespace Schemes

variable {σ α : Type*}

/-- One step of a run: the state before it, its label, the state after it. -/
structure Taken (σ α : Type*) where
  pre : σ
  act : α
  post : σ

/-- `Run step s₀ tr s`: the steps `tr`, in order, lead from `s₀` to `s`. -/
inductive Run (step : σ → α → σ → Prop) (s₀ : σ) : List (Taken σ α) → σ → Prop
  | nil : Run step s₀ [] s₀
  | snoc {tr s a t} : Run step s₀ tr s → step s a t → Run step s₀ (tr ++ [⟨s, a, t⟩]) t

/-- From `t`, the step with the label `b`, or none, leads to a state related to `s`. -/
def Matched {τ β : Type*} (step' : τ → β → τ → Prop) (R : σ → τ → Prop) (s : σ) (t : τ) :
    Option β → Prop
  | none => R s t
  | some b => ∃ t', step' t b t' ∧ R s t'

/-- What one more step adds to what is read off the steps. -/
theorem filterMap_concat {β : Type*} (f : α → Option β) (l : List α) (x : α) :
    (l ++ [x]).filterMap f = l.filterMap f ++ (f x).toList := by
  rw [List.filterMap_append]
  cases hx : f x <;> simp [hx]

namespace Run

variable {step : σ → α → σ → Prop} {s₀ s : σ} {tr : List (Taken σ α)}

/-- A step before a run. -/
theorem cons {s₁ : σ} {a : α} (hst : step s₀ a s₁) (h : Run step s₁ tr s) :
    Run step s₀ (⟨s₀, a, s₁⟩ :: tr) s := by
  induction h with
  | nil => exact Run.nil.snoc hst
  | snoc _ hst' ih => exact ih.snoc hst'

/-- One run after another. -/
theorem append {u : σ} {tr' : List (Taken σ α)} (h : Run step s₀ tr s) (h' : Run step s tr' u) :
    Run step s₀ (tr ++ tr') u := by
  induction h' with
  | nil => simpa using h
  | snoc _ hst ih =>
    rw [← List.append_assoc]
    exact ih.snoc hst

/-- What holds at the start and survives every step of the run holds at its end. -/
theorem invariant {I : σ → Prop} (h : Run step s₀ tr s) (h₀ : I s₀)
    (hstep : ∀ x ∈ tr, step x.pre x.act x.post → I x.pre → I x.post) : I s := by
  induction h with
  | nil => exact h₀
  | snoc _ hst ih =>
    have hpre := ih fun x hx => hstep x (List.mem_append_left _ hx)
    exact hstep _ (List.mem_append_right _ (List.mem_singleton_self _)) hst hpre

/-- The invariant rule for what holds of the steps so far. -/
theorem invariant_steps {I : List (Taken σ α) → σ → Prop} (h : Run step s₀ tr s) (h₀ : I [] s₀)
    (hstep : ∀ tr' s a t, ⟨s, a, t⟩ ∈ tr → step s a t → I tr' s → I (tr' ++ [⟨s, a, t⟩]) t) :
    I tr s := by
  induction h with
  | nil => exact h₀
  | snoc _ hst ih =>
    refine hstep _ _ _ _ (List.mem_append_right _ (List.mem_singleton_self _)) hst (ih ?_)
    exact fun tr' s a t hx => hstep tr' s a t (List.mem_append_left _ hx)

/-- Every step of a run is taken from a state that a shorter run, made of steps of this one,
    reaches. -/
theorem before {x : Taken σ α} (h : Run step s₀ tr s) (hx : x ∈ tr) :
    step x.pre x.act x.post ∧ ∃ tr', Run step s₀ tr' x.pre ∧ ∀ y ∈ tr', y ∈ tr := by
  induction h with
  | nil => simp at hx
  | snoc hr hst ih =>
    rcases List.mem_append.mp hx with hx | hx
    · obtain ⟨hs, tr', hr', hsub⟩ := ih hx
      exact ⟨hs, tr', hr', fun y hy => List.mem_append_left _ (hsub y hy)⟩
    · rw [List.mem_singleton] at hx
      subst hx
      exact ⟨hst, _, hr, fun y hy => List.mem_append_left _ hy⟩

theorem step_of_mem {x : Taken σ α} (h : Run step s₀ tr s) (hx : x ∈ tr) :
    step x.pre x.act x.post := (h.before hx).1

/-- The invariant rule, read at the state before a step. -/
theorem invariant_pre {I : σ → Prop} (h : Run step s₀ tr s) (h₀ : I s₀)
    (hstep : ∀ x ∈ tr, step x.pre x.act x.post → I x.pre → I x.post)
    {x : Taken σ α} (hx : x ∈ tr) : I x.pre := by
  obtain ⟨_, tr', hr', hsub⟩ := h.before hx
  exact hr'.invariant h₀ fun y hy => hstep y (hsub y hy)

/-- From the state after a step, the rest of the run leads to its end. -/
theorem after {x : Taken σ α} (h : Run step s₀ tr s) (hx : x ∈ tr) :
    ∃ tr', Run step x.post tr' s ∧ ∀ y ∈ tr', y ∈ tr := by
  induction h with
  | nil => simp at hx
  | snoc hr hst ih =>
    rcases List.mem_append.mp hx with hx | hx
    · obtain ⟨tr', hr', hsub⟩ := ih hx
      refine ⟨_, hr'.snoc hst, ?_⟩
      intro y hy
      rcases List.mem_append.mp hy with hy | hy
      · exact List.mem_append_left _ (hsub y hy)
      · exact List.mem_append_right _ hy
    · rw [List.mem_singleton] at hx
      subst hx
      exact ⟨[], .nil, by simp⟩

/-- A run can be cut at each of its steps. -/
theorem split {x : Taken σ α} {tr₁ tr₂ : List (Taken σ α)}
    (h : Run step s₀ (tr₁ ++ x :: tr₂) s) :
    Run step s₀ tr₁ x.pre ∧ step x.pre x.act x.post ∧ Run step x.post tr₂ s := by
  induction tr₂ using List.reverseRecOn generalizing s with
  | nil =>
    generalize htr : tr₁ ++ [x] = tr at h
    cases h with
    | nil => simp at htr
    | snoc hr hst =>
      obtain ⟨rfl, hx⟩ := List.append_inj' htr rfl
      obtain rfl := (List.cons.inj hx).1
      exact ⟨hr, hst, .nil⟩
  | append_singleton tr₂ y ih =>
    generalize htr : tr₁ ++ x :: (tr₂ ++ [y]) = tr at h
    cases h with
    | nil => simp at htr
    | snoc hr hst =>
      rw [← List.cons_append, ← List.append_assoc] at htr
      obtain ⟨rfl, hy⟩ := List.append_inj' htr rfl
      obtain rfl := (List.cons.inj hy).1
      obtain ⟨h₁, hx, h₂⟩ := ih hr
      exact ⟨h₁, hx, h₂.snoc hst⟩

/-- If every state after a step satisfies `P`, so does the last state. -/
theorem last_of_forall_post {P : σ → Prop} (h : Run step s₀ tr s) (h₀ : P s₀)
    (hP : ∀ x ∈ tr, P x.post) : P s :=
  h.invariant h₀ fun x hx _ _ => hP x hx

/-- If at a state with `I` a step does `P` exactly under `C`, and leads to `I` again if it meets `C`,
    then all steps of a run do `P` exactly if all of them meet `C`. -/
theorem forall_iff {I : σ → Prop} {P C : Taken σ α → Prop} (h : Run step s₀ tr s) (h₀ : I s₀)
    (hexact : ∀ x ∈ tr, step x.pre x.act x.post → I x.pre → (P x ↔ C x))
    (hkeep : ∀ x ∈ tr, step x.pre x.act x.post → I x.pre → C x → I x.post) :
    (∀ x ∈ tr, P x) ↔ ∀ x ∈ tr, C x := by
  induction h with
  | nil => simp
  | @snoc tr s a t hr hst ih =>
    have hmem : ∀ x ∈ tr, x ∈ tr ++ [⟨s, a, t⟩] := fun x hx => List.mem_append_left _ hx
    have ih' := ih (fun x hx => hexact x (hmem x hx)) fun x hx => hkeep x (hmem x hx)
    have hlast := hexact _ (List.mem_append_right _ (List.mem_singleton_self _)) hst
    -- all steps so far meet `C`, so the last one is taken from a state with `I`
    have hinv : (∀ x ∈ tr, C x) → I s := fun hall =>
      hr.invariant h₀ fun x hx hstep hpre => hkeep x (hmem x hx) hstep hpre (hall x hx)
    simp only [List.forall_mem_append, List.forall_mem_singleton]
    constructor
    · rintro ⟨hall, hp⟩
      have hall' := ih'.mp hall
      exact ⟨hall', (hlast (hinv hall')).mp hp⟩
    · rintro ⟨hall, hc⟩
      exact ⟨ih'.mpr hall, (hlast (hinv hall)).mpr hc⟩

/-- If, from a state that satisfies `P`, one step leads to `P` exactly under `C`, then `P` holds
    throughout a run exactly when all its steps meet `C`. -/
theorem forall_post_iff {P : σ → Prop} {C : Taken σ α → Prop} (h : Run step s₀ tr s)
    (h₀ : P s₀) (hstep : ∀ x ∈ tr, P x.pre → (P x.post ↔ C x)) :
    (∀ x ∈ tr, P x.post) ↔ ∀ x ∈ tr, C x :=
  h.forall_iff h₀ (fun x hx _ hpre => hstep x hx hpre) fun x hx _ hpre hc => (hstep x hx hpre).mpr hc

/-- Forward simulation: if every step of a run is matched by the step that `label` gives it, or by
    none, the run is matched by one whose labels are those. -/
theorem simulate {τ β : Type*} {step' : τ → β → τ → Prop} {R : σ → τ → Prop} {t₀ : τ}
    (label : Taken σ α → Option β) (h : Run step s₀ tr s) (h₀ : R s₀ t₀)
    (hsim : ∀ x ∈ tr, step x.pre x.act x.post → ∀ t, R x.pre t →
      Matched step' R x.post t (label x)) :
    ∃ tr' t, Run step' t₀ tr' t ∧ tr'.map Taken.act = tr.filterMap label ∧ R s t := by
  induction h with
  | nil => exact ⟨[], t₀, .nil, rfl, h₀⟩
  | @snoc tr s a t _ hst ih =>
    obtain ⟨tr', u, hrun, hlabels, hR⟩ := ih fun x hx => hsim x (List.mem_append_left _ hx)
    have hlast := hsim _ (List.mem_append_right _ (List.mem_singleton_self _)) hst u hR
    simp only [List.filterMap_append, List.filterMap_cons, List.filterMap_nil]
    cases hlabel : label ⟨s, a, t⟩ with
    | none =>
      rw [hlabel] at hlast
      exact ⟨tr', u, hrun, by simp [hlabels], hlast⟩
    | some b =>
      rw [hlabel] at hlast
      obtain ⟨u', hstep, hR'⟩ := hlast
      exact ⟨_, u', hrun.snoc hstep, by simp [hlabels], hR'⟩

end Run

end Schemes
