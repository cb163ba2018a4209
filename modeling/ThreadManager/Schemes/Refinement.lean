import ThreadManager.Schemes.Outcome

/-! Refinement of operations with outputs.

    The code is `exec`, which may fault; the specification is `spec`, which is undefined (`none`)
    where an operation must not be called. `Refines` is the obligation on one operation, and
    `refines_all` carries it to every sequence of operations: outputs agree and the states stay
    related. -/

namespace Schemes

variable {ε σ τ α ρ : Type}

/-- All operations in order, with their outputs. -/
def execAll (exec : σ → α → Outcome ε (ρ × σ)) : σ → List α → Outcome ε (List ρ × σ)
  | s, [] => .done ([], s)
  | s, op :: ops => do
    let (r, s) ← exec s op
    let (rs, s) ← execAll exec s ops
    return (r :: rs, s)

/-- All operations of the specification in order, with their outputs. -/
def specAll (spec : τ → α → Option (ρ × τ)) : τ → List α → Option (List ρ × τ)
  | t, [] => some ([], t)
  | t, op :: ops => do
    let (r, t) ← spec t op
    let (rs, t) ← specAll spec t ops
    return (r :: rs, t)

/-- Where the specification is defined, the code returns, with the same output and a related
    state. `G` is what the operations are promised to satisfy. -/
def Refines (R : σ → τ → Prop) (G : α → Prop) (exec : σ → α → Outcome ε (ρ × σ))
    (spec : τ → α → Option (ρ × τ)) : Prop :=
  ∀ s t op r t', R s t → G op → spec t op = some (r, t') →
    ∃ s', exec s op = .done (r, s') ∧ R s' t'

theorem refines_all {R : σ → τ → Prop} {G : α → Prop} {exec : σ → α → Outcome ε (ρ × σ)}
    {spec : τ → α → Option (ρ × τ)} (href : Refines R G exec spec) :
    ∀ (ops : List α) (s : σ) (t : τ) (rs : List ρ) (t' : τ), R s t → (∀ op ∈ ops, G op) →
      specAll spec t ops = some (rs, t') →
      ∃ s', execAll exec s ops = .done (rs, s') ∧ R s' t'
  | [], s, t, rs, t', hR, _, hspec => by
    simp only [specAll, Option.some.injEq, Prod.mk.injEq] at hspec
    obtain ⟨rfl, rfl⟩ := hspec
    exact ⟨s, rfl, hR⟩
  | op :: ops, s, t, rs, t', hR, hG, hspec => by
    simp only [specAll, Option.bind_eq_bind, Option.bind_eq_some_iff, Option.pure_def,
      Option.some.injEq, Prod.mk.injEq] at hspec
    obtain ⟨⟨r, t₁⟩, hop, ⟨rs', t₂⟩, hrest, rfl, rfl⟩ := hspec
    obtain ⟨s₁, hexec, hR₁⟩ := href s t op r t₁ hR (hG op List.mem_cons_self) hop
    obtain ⟨s₂, hall, hR₂⟩ := refines_all href ops s₁ t₁ rs' t₂ hR₁
      (fun o ho => hG o (List.mem_cons_of_mem _ ho)) hrest
    exact ⟨s₂, by simp only [execAll, hexec, hall, Outcome.done_bind, Outcome.pure_eq], hR₂⟩

end Schemes
