import ThreadManager.Schemes.Outcome

/-! Objects in memory, reached through pointers that may be NULL or stale.

    An object keeps its identity for ever: `delete` leaves its address without an object and no
    later object takes it over, so a pointer kept past the `delete` is recognised when it is
    followed. Following NULL or such a pointer is a fault. `upd` is the effect of a field write;
    the `upd` lemmas say which reads a write can change. -/

namespace Schemes

/-- The identity of an object. -/
abbrev Addr := ℕ

/-- `T*`; `none` is NULL. -/
abbrev Ptr := Option Addr

/-- Following a pointer goes wrong: it is NULL, or no object is there. -/
inductive Fault where
  | nullDeref
  | dangling
  deriving DecidableEq, Repr

/-- The objects alive, by identity. -/
abbrev Heap (T : Type*) := Addr → Option T

namespace Heap

variable {T R : Type*} {h : Heap T} {a b : Addr} {f : T → T} {g : T → R}

/-- `*p`. -/
def deref (h : Heap T) : Ptr → Outcome Fault T
  | none => .fault .nullDeref
  | some a => match h a with
    | none => .fault .dangling
    | some x => .done x

/-- The memory after a write into the object at `a`. -/
def upd (h : Heap T) (a : Addr) (f : T → T) : Heap T :=
  fun b => if b = a then (h b).map f else h b

/-- Write into `*p`. -/
def modify (h : Heap T) (p : Ptr) (f : T → T) : Outcome Fault (Heap T) :=
  match p with
  | none => .fault .nullDeref
  | some a => match h a with
    | none => .fault .dangling
    | some _ => .done (h.upd a f)

/-- `new T(x)` at the identity `a`. -/
def alloc (h : Heap T) (a : Addr) (x : T) : Heap T := Function.update h a (some x)

/-- `delete p`; deleting NULL does nothing. -/
def delete (h : Heap T) : Ptr → Outcome Fault (Heap T)
  | none => .done h
  | some a => match h a with
    | none => .fault .dangling
    | some _ => .done (Function.update h a none)

@[simp] theorem deref_none : h.deref none = .fault .nullDeref := rfl

@[simp] theorem modify_none : h.modify none f = .fault .nullDeref := rfl

theorem deref_some {x : T} (hx : h a = some x) : h.deref (some a) = .done x := by
  simp [deref, hx]

theorem modify_some (ha : (h a).isSome) : h.modify (some a) f = .done (h.upd a f) := by
  obtain ⟨x, hx⟩ := Option.isSome_iff_exists.mp ha
  simp [modify, hx]

theorem modify_dead (ha : ¬(h a).isSome) : h.modify (some a) f = .fault .dangling := by
  rw [Option.not_isSome_iff_eq_none] at ha
  simp [modify, ha]

theorem deref_eq_done {p : Ptr} {x : T} : h.deref p = .done x ↔ ∃ a, p = some a ∧ h a = some x := by
  cases p with
  | none => simp
  | some a => cases hx : h a <;> simp [deref, hx]

theorem modify_eq_done {p : Ptr} {h' : Heap T} :
    h.modify p f = .done h' ↔ ∃ a, p = some a ∧ (h a).isSome ∧ h' = h.upd a f := by
  cases p with
  | none => simp
  | some a =>
    cases hx : h a with
    | none => simp [modify, hx]
    | some x =>
      simp only [modify, hx, Outcome.done.injEq, Option.some.injEq, exists_eq_left',
        Option.isSome_some, true_and]
      exact eq_comm

theorem delete_eq_done {h' : Heap T} :
    h.delete (some a) = .done h' ↔ (h a).isSome ∧ h' = Function.update h a none := by
  cases hx : h a with
  | none => simp [delete, hx]
  | some x =>
    simp only [delete, hx, Outcome.done.injEq, Option.isSome_some, true_and]
    exact eq_comm

@[simp] theorem upd_same : h.upd a f a = (h a).map f := by simp [upd]

theorem upd_of_ne (hb : b ≠ a) : h.upd a f b = h b := by simp [upd, hb]

@[simp] theorem isSome_upd : (h.upd a f b).isSome = (h b).isSome := by
  by_cases hb : b = a <;> simp [upd, hb]

/-- A write of what is already there changes nothing. -/
theorem upd_eq_self (hf : ∀ x, h a = some x → f x = x) : h.upd a f = h := by
  funext b
  by_cases hb : b = a
  · subst hb
    cases hx : h b with
    | none => simp [hx]
    | some x => simp [hx, hf x hx]
  · exact upd_of_ne hb

theorem upd_upd {f' : T → T} : (h.upd a f).upd a f' = h.upd a fun x => f' (f x) := by
  funext b
  by_cases hb : b = a
  · subst hb
    cases hx : h b <;> simp [hx]
  · rw [upd_of_ne hb, upd_of_ne hb, upd_of_ne hb]

/-- A write that leaves the field `g` alone leaves every read of `g` alone. -/
theorem map_upd_of_eq (hg : ∀ x, g (f x) = g x) : (h.upd a f b).map g = (h b).map g := by
  by_cases hb : b = a
  · subst hb
    cases hx : h b <;> simp [hx, hg]
  · rw [upd_of_ne hb]

/-- A write that sets the field `g` to `v` is what a read of `g` then sees. -/
theorem map_upd_same {v : R} (hg : ∀ x, g (f x) = v) (ha : (h a).isSome) :
    (h.upd a f a).map g = some v := by
  obtain ⟨x, hx⟩ := Option.isSome_iff_exists.mp ha
  simp [hx, hg]

theorem alloc_same {x : T} : h.alloc a x a = some x := by simp [alloc]

theorem alloc_of_ne {x : T} (hb : b ≠ a) : h.alloc a x b = h b := by simp [alloc, hb]

end Heap

end Schemes
