import Mathlib.Tactic

/-! Code that may fault and code that may loop.

    `Outcome ε α` is what a run of a piece of code shows when its loops are given a bounded number
    of passes: a result, a fault, or nothing yet. A `while (true)` is `loop body n`, at most `n`
    passes of its body. Whether the code returns is then a statement about the whole family
    `n ↦ Outcome`: `Completes` and `Faults` say that some number of passes shows the end, and a
    `Stable` family shows at most one of them. `loop_total` is the rule for total correctness. -/

namespace Schemes

universe u v
variable {ε : Type u} {α β σ : Type v}

/-- What a run with a bounded number of loop passes shows. -/
inductive Outcome (ε : Type u) (α : Type v) where
  | done (a : α)
  | fault (e : ε)
  | running
  deriving DecidableEq, Repr

namespace Outcome

/-- Sequencing: a fault or an unfinished loop ends the run. -/
def bind : Outcome ε α → (α → Outcome ε β) → Outcome ε β
  | .done a, f => f a
  | .fault e, _ => .fault e
  | .running, _ => .running

instance : Monad (Outcome ε) where
  pure := .done
  bind := Outcome.bind

@[simp] theorem pure_eq (a : α) : (pure a : Outcome ε α) = .done a := rfl

@[simp] theorem done_bind (a : α) (f : α → Outcome ε β) : (Outcome.done a >>= f) = f a := rfl

@[simp] theorem fault_bind (e : ε) (f : α → Outcome ε β) :
    (Outcome.fault e >>= f) = .fault e := rfl

@[simp] theorem running_bind (f : α → Outcome ε β) :
    ((Outcome.running : Outcome ε α) >>= f) = .running := rfl

theorem bind_eq_done {x : Outcome ε α} {f : α → Outcome ε β} {b : β} :
    (x >>= f) = .done b ↔ ∃ a, x = .done a ∧ f a = .done b := by
  cases x <;> simp

theorem bind_eq_fault {x : Outcome ε α} {f : α → Outcome ε β} {e : ε} :
    (x >>= f) = .fault e ↔ x = .fault e ∨ ∃ a, x = .done a ∧ f a = .fault e := by
  cases x <;> simp

end Outcome

/-! ### Families indexed by the number of passes -/

/-- The code returns `a`. -/
def Completes (f : ℕ → Outcome ε α) (a : α) : Prop := ∃ n, f n = .done a

/-- The code faults with `e`. -/
def Faults (f : ℕ → Outcome ε α) (e : ε) : Prop := ∃ n, f n = .fault e

/-- Allowing more passes never changes an end that was already seen. -/
def Stable (f : ℕ → Outcome ε α) : Prop :=
  ∀ n m, n ≤ m → f n ≠ .running → f m = f n

theorem Stable.const (x : Outcome ε α) : Stable (fun _ => x) := fun _ _ _ _ => rfl

theorem Stable.bind {f : ℕ → Outcome ε α} {g : α → ℕ → Outcome ε β} (hf : Stable f)
    (hg : ∀ a, Stable (g a)) : Stable (fun n => f n >>= fun a => g a n) := by
  intro n m hnm hne
  have hfn : f n ≠ .running := by
    intro h
    exact hne (by simp only [h, Outcome.running_bind])
  simp only [hf n m hnm hfn] at hne ⊢
  cases hx : f n with
  | done a =>
    rw [hx] at hne
    exact hg a n m hnm hne
  | fault e => rfl
  | running => exact absurd hx hfn

/-- Two numbers of passes that both show an end show the same end. -/
theorem Stable.eq_of_ne {f : ℕ → Outcome ε α} (hf : Stable f) {n m : ℕ}
    (hn : f n ≠ .running) (hm : f m ≠ .running) : f n = f m := by
  rcases le_total n m with h | h
  · exact (hf n m h hn).symm
  · exact hf m n h hm

theorem Stable.completes_unique {f : ℕ → Outcome ε α} (hf : Stable f) {a b : α}
    (ha : Completes f a) (hb : Completes f b) : a = b := by
  obtain ⟨n, hn⟩ := ha
  obtain ⟨m, hm⟩ := hb
  have h := hf.eq_of_ne (n := n) (m := m) (by rw [hn]; simp) (by rw [hm]; simp)
  rw [hn, hm] at h
  exact Outcome.done.inj h

/-- A number of passes that shows the end shows whether the code returns `a`. -/
theorem Stable.completes_iff {f : ℕ → Outcome ε α} (hf : Stable f) {a : α} {n : ℕ}
    (hn : f n ≠ .running) : Completes f a ↔ f n = .done a := by
  constructor
  · rintro ⟨m, hm⟩
    rw [← hm]
    exact hf.eq_of_ne hn (by rw [hm]; simp)
  · intro h
    exact ⟨n, h⟩

theorem Stable.not_completes {f : ℕ → Outcome ε α} (hf : Stable f) {e : ε} (he : Faults f e) :
    ¬ ∃ a, Completes f a := by
  rintro ⟨a, n, hn⟩
  obtain ⟨m, hm⟩ := he
  have h := hf.eq_of_ne (n := n) (m := m) (by rw [hn]; simp) (by rw [hm]; simp)
  rw [hn, hm] at h
  cases h

/-- A family that shows another end at some number of passes never faults with `e`. -/
theorem Stable.ne_fault {f : ℕ → Outcome ε α} (hf : Stable f) {e : ε} {m : ℕ}
    (hm : (∃ a, f m = .done a) ∨ ∃ e', e' ≠ e ∧ f m = .fault e') (n : ℕ) : f n ≠ .fault e := by
  intro hn
  have hrun : f m ≠ .running := by
    rcases hm with ⟨a, ha⟩ | ⟨e', -, he'⟩ <;> simp [*]
  have heq := hf.eq_of_ne (n := n) (m := m) (by simp [hn]) hrun
  rw [hn] at heq
  rcases hm with ⟨a, ha⟩ | ⟨e', hne, he'⟩
  · rw [ha] at heq
    cases heq
  · rw [he'] at heq
    exact hne (Outcome.fault.inj heq).symm

/-! ### Loops -/

/-- `while (true) body`, at most `n` passes: a pass continues (`inl`) or breaks (`inr`). -/
def loop (body : σ → Outcome ε (σ ⊕ β)) : ℕ → σ → Outcome ε β
  | 0, _ => .running
  | n + 1, s => body s >>= fun
    | .inl s' => loop body n s'
    | .inr b => .done b

theorem loop_stable (body : σ → Outcome ε (σ ⊕ β)) (s : σ) :
    Stable (fun n => loop body n s) := by
  intro n
  induction n generalizing s with
  | zero => intro _ _ h; exact absurd rfl h
  | succ n ih =>
    intro m hnm hne
    obtain ⟨k, rfl⟩ := Nat.exists_eq_add_of_le hnm
    rw [show n + 1 + k = (n + k) + 1 by omega]
    simp only [loop] at hne ⊢
    cases hb : body s with
    | fault e => rfl
    | running => rfl
    | done x =>
      cases x with
      | inr b => rfl
      | inl s' =>
        rw [hb] at hne
        exact ih s' (n + k) (by omega) hne

/-- Total correctness of a loop. `R k s` says that `s` is a loop state with at most `k` passes
    to go: each pass either goes on with fewer to go, or ends in a way that meets `P`. -/
theorem loop_total {body : σ → Outcome ε (σ ⊕ β)} {R : ℕ → σ → Prop}
    {P : Outcome ε β → Prop}
    (hpass : ∀ k s, R k s →
      (∃ s', body s = .done (.inl s') ∧ ∃ j < k, R j s') ∨
      (∃ b, body s = .done (.inr b) ∧ P (.done b)) ∨
      (∃ e, body s = .fault e ∧ P (.fault e))) :
    ∀ n k s, R k s → k < n → P (loop body n s) := by
  intro n
  induction n with
  | zero => intro k s _ hk; omega
  | succ n ih =>
    intro k s hR hk
    rcases hpass k s hR with ⟨s', hs, j, hj, hR'⟩ | ⟨b, hs, hp⟩ | ⟨e, hs, hp⟩
    · simp only [loop, hs, Outcome.done_bind]
      exact ih j s' hR' (by omega)
    · simpa only [loop, hs, Outcome.done_bind] using hp
    · simpa only [loop, hs, Outcome.fault_bind] using hp

/-- Partial correctness of a loop: an invariant of the passes that go on, and what it gives at
    the pass that breaks. -/
theorem loop_partial {body : σ → Outcome ε (σ ⊕ β)} {I : σ → Prop} {P : β → Prop}
    (hgo : ∀ s s', I s → body s = .done (.inl s') → I s')
    (hstop : ∀ s b, I s → body s = .done (.inr b) → P b) :
    ∀ n s b, I s → loop body n s = .done b → P b := by
  intro n
  induction n with
  | zero => intro s b _ h; cases h
  | succ n ih =>
    intro s b hI h
    obtain ⟨x, hx, h⟩ := Outcome.bind_eq_done.mp h
    cases x with
    | inl s' => exact ih s' b (hgo s s' hI hx) h
    | inr b' =>
      obtain rfl : b' = b := Outcome.done.inj h
      exact hstop s b' hI hx

end Schemes
