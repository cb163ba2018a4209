import ThreadManager.Schemes.Outcome
import ThreadManager.Schemes.Heap

/-! The wake pipe of a `Poll`: `Poll::wake` and `Poll::awoken` of Poll.cpp.

    The pipe holds a number of bytes up to a capacity. Both ends are non-blocking: a write of one
    byte fails with EAGAIN when the pipe is full, a read fails with EAGAIN when it is empty. A call
    cut short by EINTR is repeated by both functions and changes nothing, so it is left out. -/

namespace ThreadManager
open Schemes

/-- The pipe between `mWakeWritePipeFd` and `mWakeReadPipeFd`. -/
structure WakePipe where
  capacity : ℕ
  count : ℕ
  capacity_pos : 0 < capacity
  count_le : count ≤ capacity

namespace WakePipe

variable {p : WakePipe}

/-- An empty pipe. -/
def new (capacity : ℕ) (h : 0 < capacity) : WakePipe := ⟨capacity, 0, h, Nat.zero_le _⟩

/-- `write(fd, "W", 1)`; `none` is EAGAIN. -/
def write (p : WakePipe) : Option WakePipe :=
  if h : p.count < p.capacity then some { p with count := p.count + 1, count_le := h } else none

/-- `read(fd, buffer, n)`, with the number of bytes read; `none` is EAGAIN. -/
def read (p : WakePipe) (n : ℕ) : Option (ℕ × WakePipe) :=
  if p.count = 0 then none
  else some (min n p.count,
    { p with count := p.count - n, count_le := (Nat.sub_le _ _).trans p.count_le })

/-- `Poll::wake`: a write that meets a full pipe is dropped. -/
def wake (p : WakePipe) : WakePipe := p.write.getD p

/-- One pass of the `do … while` of `Poll::awoken`: go on while the buffer came back full. -/
def awokenPass (p : WakePipe) : Outcome Fault (WakePipe ⊕ WakePipe) :=
  match p.read 16 with
  | none => .done (.inr p)
  | some (nRead, p) => if nRead = 16 then .done (.inl p) else .done (.inr p)

/-- `Poll::awoken`, its loop given `fuel` passes. -/
def awoken (fuel : ℕ) (p : WakePipe) : Outcome Fault WakePipe := loop awokenPass fuel p

/-- The pipe is readable after every `wake`. -/
theorem count_wake_pos (p : WakePipe) : 0 < p.wake.count := by
  unfold wake write
  by_cases h : p.count < p.capacity
  · simp [h]
  · simp only [h, dite_false, Option.getD_none]
    exact p.capacity_pos.trans_le (not_lt.mp h)

theorem count_wake_of_zero (h : p.count = 0) : p.wake.count = 1 := by
  have hlt : p.count < p.capacity := h ▸ p.capacity_pos
  rw [wake, write, dif_pos hlt, Option.getD_some]
  exact congrArg (· + 1) h

/-- A wake is one byte at most. -/
theorem count_wake_le (p : WakePipe) : p.wake.count ≤ p.count + 1 := by
  unfold wake write
  split <;> simp

/-- One read of `awoken`: a full buffer leaves 16 bytes less in the pipe, any other read leaves none
    and ends the loop. -/
theorem awokenPass_cases (p : WakePipe) :
    (∃ p', awokenPass p = .done (.inl p') ∧ p'.count + 16 = p.count ∧ p'.capacity = p.capacity) ∨
      ∃ p', awokenPass p = .done (.inr p') ∧ p'.count = 0 ∧ p'.capacity = p.capacity := by
  rcases Nat.eq_zero_or_pos p.count with h0 | hpos
  · exact Or.inr ⟨p, by simp [awokenPass, read, h0], h0, rfl⟩
  · rcases lt_or_ge p.count 16 with hlt | hge
    · refine Or.inr ⟨⟨p.capacity, p.count - 16, p.capacity_pos, (Nat.sub_le _ _).trans p.count_le⟩,
        ?_, by simp only []; omega, rfl⟩
      have h16 : min 16 p.count ≠ 16 := by omega
      simp [awokenPass, read, hpos.ne', h16]
    · refine Or.inl ⟨⟨p.capacity, p.count - 16, p.capacity_pos, (Nat.sub_le _ _).trans p.count_le⟩,
        ?_, by simp only []; omega, rfl⟩
      have h16 : min 16 p.count = 16 := by omega
      simp [awokenPass, read, hpos.ne', h16]

/-- `awoken` returns from every count, multiples of the buffer size included, and leaves the pipe
    empty. -/
theorem awoken_empties (p : WakePipe) {n : ℕ} (hn : p.count < n) :
    ∃ p', p.awoken n = .done p' ∧ p'.count = 0 ∧ p'.capacity = p.capacity := by
  refine loop_total (R := fun k (q : WakePipe) => q.count = k ∧ q.capacity = p.capacity)
    (P := fun o => ∃ p' : WakePipe, o = .done p' ∧ p'.count = 0 ∧ p'.capacity = p.capacity)
    ?_ n p.count p ⟨rfl, rfl⟩ hn
  rintro k q ⟨rfl, hcap⟩
  rcases awokenPass_cases q with ⟨q', hpass, hcount, hcap'⟩ | ⟨q', hpass, hzero, hcap'⟩
  · exact Or.inl ⟨q', hpass, q'.count, by omega, rfl, hcap'.trans hcap⟩
  · exact Or.inr (Or.inl ⟨q', hpass, q', rfl, hzero, hcap'.trans hcap⟩)

end WakePipe

end ThreadManager
