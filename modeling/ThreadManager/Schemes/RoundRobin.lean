import ThreadManager.Schemes.Transition

/-! Round robin.

    A round serves the first `m` members of a list that ask for it, and puts them at its end. A member
    that asks and is not served has had `m` others taken from before it, so it is served after one
    round more than `m` goes into its index. -/

namespace Schemes

variable {α : Type*} {p : α → Bool} {m : ℕ} {a b : α} {l : List α}

/-- The first `m` members that ask, and the other ones. -/
def serve (p : α → Bool) : ℕ → List α → List α × List α
  | 0, l => ([], l)
  | _ + 1, [] => ([], [])
  | m + 1, a :: l =>
    if p a then
      let (served, kept) := serve p m l
      (a :: served, kept)
    else
      let (served, kept) := serve p (m + 1) l
      (served, a :: kept)

/-- The list after a round. -/
def round (p : α → Bool) (m : ℕ) (l : List α) : List α := (serve p m l).2 ++ (serve p m l).1

/-! ### One round -/

theorem serve_perm (p : α → Bool) (m : ℕ) (l : List α) :
    ((serve p m l).1 ++ (serve p m l).2).Perm l := by
  fun_induction serve p m l with
  | case1 l => exact .refl _
  | case2 => exact .refl _
  | case3 m a l ha served kept heq ih =>
    rw [heq] at ih
    exact ih.cons a
  | case4 m a l ha served kept heq ih =>
    rw [heq] at ih
    exact List.perm_middle.trans (ih.cons a)

theorem round_perm (p : α → Bool) (m : ℕ) (l : List α) : (round p m l).Perm l :=
  List.perm_append_comm.trans (serve_perm p m l)

theorem mem_serve : a ∈ l ↔ a ∈ (serve p m l).1 ∨ a ∈ (serve p m l).2 := by
  rw [← (serve_perm p m l).mem_iff, List.mem_append]

/-- Who is served has asked. -/
theorem asks_of_mem_serve (h : a ∈ (serve p m l).1) : p a = true := by
  fun_induction serve p m l with
  | case1 l => cases h
  | case2 => cases h
  | case3 m b l hb served kept heq ih =>
    rw [heq] at ih
    rcases List.mem_cons.mp h with rfl | h
    · exact hb
    · exact ih h
  | case4 m b l hb served kept heq ih =>
    rw [heq] at ih
    exact ih h

/-- If everyone asks, the first `m` are served. -/
theorem serve_of_all (h : ∀ a ∈ l, p a = true) : serve p m l = (l.take m, l.drop m) := by
  fun_induction serve p m l with
  | case1 l => rfl
  | case2 => rfl
  | case3 m b l hb served kept heq ih =>
    obtain ⟨rfl, rfl⟩ := Prod.mk.inj (heq.symm.trans (ih fun a ha => h a (List.mem_cons_of_mem b ha)))
    rfl
  | case4 m b l hb served kept heq ih => exact absurd (h b List.mem_cons_self) hb

variable [DecidableEq α]

/-- `m` others are taken from before one that asks in vain. -/
theorem idxOf_kept (hl : l.Nodup) (hp : p a = true) (h : a ∈ (serve p m l).2) :
    (serve p m l).2.idxOf a + m ≤ l.idxOf a := by
  fun_induction serve p m l with
  | case1 l => exact le_rfl
  | case2 => cases h
  | case3 m b l hb served kept heq ih =>
    rw [heq] at ih
    obtain ⟨hbl, hl⟩ := List.nodup_cons.mp hl
    have hne : b ≠ a := by
      rintro rfl
      refine hbl (mem_serve (p := p) (m := m).mpr (Or.inr ?_))
      rw [heq]
      exact h
    rw [List.idxOf_cons_ne _ hne]
    exact Nat.succ_le_succ (ih hl h)
  | case4 m b l hb served kept heq ih =>
    rw [heq] at ih
    have hne : b ≠ a := by
      rintro rfl
      exact hb hp
    rw [List.idxOf_cons_ne _ hne, List.idxOf_cons_ne _ hne, Nat.succ_add]
    exact Nat.succ_le_succ (ih (List.nodup_cons.mp hl).2 (List.mem_of_ne_of_mem hne.symm h))

/-- In a short list everyone who asks is served. -/
theorem mem_serve_of_length_le (hl : l.Nodup) (hlength : l.length ≤ m) (ha : a ∈ l)
    (hp : p a = true) : a ∈ (serve p m l).1 := by
  rcases mem_serve (p := p) (m := m).mp ha with h | h
  · exact h
  · have hkept := idxOf_kept hl hp h
    have hlt := List.idxOf_lt_length_of_mem ha
    omega

theorem idxOf_round (hl : l.Nodup) (ha : a ∈ l) (hp : p a = true) (h : a ∉ (serve p m l).1) :
    (round p m l).idxOf a + m ≤ l.idxOf a := by
  have hkept := (mem_serve.mp ha).resolve_left h
  rw [round, List.idxOf_append_of_mem hkept]
  exact idxOf_kept hl hp hkept

/-! ### Between the rounds -/

/-- One who leaves does not hold up the others. -/
theorem idxOf_erase_le (hne : b ≠ a) : (l.erase b).idxOf a ≤ l.idxOf a := by
  induction l with
  | nil => exact le_rfl
  | cons c l ih =>
    by_cases hcb : c = b
    · subst hcb
      rw [List.erase_cons_head, List.idxOf_cons_ne _ hne]
      exact Nat.le_succ _
    · rw [List.erase_cons_tail (by simpa using hcb)]
      by_cases hca : c = a
      · subst hca
        simp
      · rw [List.idxOf_cons_ne _ hca, List.idxOf_cons_ne _ hca]
        exact Nat.succ_le_succ ih

/-- `b` moves to the end. -/
def toBack (b : α) (l : List α) : List α := l.erase b ++ [b]

theorem toBack_perm (h : b ∈ l) : (toBack b l).Perm l :=
  (List.perm_append_singleton b _).trans (List.perm_cons_erase h).symm

theorem idxOf_toBack_le (ha : a ∈ l) (hne : b ≠ a) : (toBack b l).idxOf a ≤ l.idxOf a := by
  rw [toBack, List.idxOf_append_of_mem ((List.mem_erase_of_ne hne.symm).mpr ha)]
  exact idxOf_erase_le hne

/-! ### Runs -/

/-- If no step raises `μ` and those with `c` lower it by `m`, a run has at most `μ / m` of them. -/
theorem Run.countP_le {σ β : Type*} {step : σ → β → σ → Prop} {s₀ s : σ} {tr : List (Taken σ β)}
    (h : Run step s₀ tr s) (μ : σ → ℕ) (c : Taken σ β → Bool)
    (hstep : ∀ x ∈ tr, μ x.post + (if c x then m else 0) ≤ μ x.pre) :
    μ s + m * tr.countP c ≤ μ s₀ := by
  induction h with
  | nil => exact le_rfl
  | @snoc tr s a t _ _ ih =>
    have hpre := ih fun x hx => hstep x (List.mem_append_left _ hx)
    have hlast : μ t + (if c ⟨s, a, t⟩ then m else 0) ≤ μ s :=
      hstep _ (List.mem_append_right _ (List.mem_singleton_self _))
    rw [List.countP_append, List.countP_singleton, Nat.mul_add]
    split at hlast
    case isTrue hc =>
      rw [if_pos hc]
      omega
    case isFalse hc =>
      rw [if_neg hc]
      omega

end Schemes
