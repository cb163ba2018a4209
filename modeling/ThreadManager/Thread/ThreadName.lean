import ThreadManager.Schemes.CString
import ThreadManager.Schemes.Width

/-! The name of a new thread, at the end of `thread_data_t::trampoline`.

    The kernel takes 15 bytes of a name. Of a name that is longer the last ones are more telling if it
    is dotted, and then the pointer that is passed goes to the 15 bytes at its end; a name with an `@`
    is kept from its beginning. The length is an `int`, so this is so for names that are shorter than
    2^31 bytes; of any other name the kernel still takes a part. -/

namespace ThreadManager
open Schemes

/-- `'.'` and `'@'`. -/
def dot : Byte := '.'.toUInt8

def atSign : Byte := '@'.toUInt8

/-- The variables of the loop over the name. -/
structure NameScan where
  s : ℕ
  hasAt : Bool
  hasDot : Bool
  deriving DecidableEq, Repr

/-- A pass of the loop. -/
def namePass (m : Chars) (x : NameScan) : Outcome MemFault (NameScan ⊕ NameScan) := do
  let b ← m.byteAt x.s
  if b = 0 then return .inr x
  else if b = dot then return .inl { x with s := x.s + 1, hasDot := true }
  else if b = atSign then return .inl { x with s := x.s + 1, hasAt := true }
  else return .inl { x with s := x.s + 1 }

/-- The bytes of a name that the kernel takes. -/
def commLength : ℕ := 15

/-- `prctl(PR_SET_NAME, ..)`. -/
def prctlSetName (m : Chars) (s : ℕ) : Outcome MemFault (List Byte) := do
  return (← Chars.strncpyCells commLength (m.drop s)).takeWhile (· ≠ 0)

/-- The part of the trampoline for a name, which begins at `name`; the new name of the thread. -/
def setThreadName (n : ℕ) (m : Chars) (name : ℕ) : Outcome MemFault (List Byte) := do
  let x ← loop (namePass m) n ⟨name, false, false⟩
  let len := signed 32 (x.s - name)
  let s := if len < 15 ∨ x.hasAt ∨ ¬x.hasDot then name else (name + len - 15).toNat
  prctlSetName m s

variable {m : Chars} {i n k : ℕ} {b : Byte} {name u v : List Byte} {x : NameScan}

/-- Before a pass: `u` was read, `v` is to come. -/
def Scanned (m : Chars) (i : ℕ) (name : List Byte) (k : ℕ) (x : NameScan) : Prop :=
  ∃ u v, name = u ++ v ∧ k = v.length ∧
    x = ⟨i + u.length, decide (atSign ∈ u), decide (dot ∈ u)⟩ ∧ CStr m x.s v

theorem namePass_byte (hbyte : m.byteAt x.s = .done b) (hb : b ≠ 0) : namePass m x =
    .done (.inl ⟨x.s + 1, x.hasAt || decide (b = atSign), x.hasDot || decide (b = dot)⟩) := by
  have hne : dot ≠ atSign := by decide
  simp only [namePass, hbyte, Outcome.done_bind, Outcome.pure_eq, if_neg hb]
  by_cases hdot : b = dot
  · simp [hdot, hne]
  · by_cases hat : b = atSign
    · simp [hat, hne.symm]
    · simp [hdot, hat]

theorem decide_mem_concat (a : Byte) : decide (a ∈ u ++ [b]) = (decide (a ∈ u) || decide (b = a)) := by
  simp [List.mem_append, eq_comm, Bool.decide_or]

theorem Scanned.pass (h : Scanned m i name k x) :
    (∃ y, namePass m x = .done (.inl y) ∧ ∃ j < k, Scanned m i name j y) ∨
      namePass m x = .done (.inr x) ∧
        x = ⟨i + name.length, decide (atSign ∈ name), decide (dot ∈ name)⟩ := by
  obtain ⟨u, v, rfl, rfl, rfl, hstr⟩ := h
  cases v with
  | nil =>
    right
    rw [List.append_nil, namePass, hstr.byteAt_end]
    exact ⟨rfl, rfl⟩
  | cons b v =>
    left
    have hb : b ≠ 0 := fun h0 => hstr.1 (h0 ▸ List.mem_cons_self)
    refine ⟨_, namePass_byte hstr.byteAt_head hb, v.length, Nat.lt_succ_self _, u ++ [b], v,
      List.append_cons u b v, rfl, ?_, hstr.tail⟩
    rw [decide_mem_concat, decide_mem_concat, List.length_append, List.length_singleton, ← add_assoc]

theorem nameLoop (h : CStr m i name) (hn : name.length < n) :
    loop (namePass m) n ⟨i, false, false⟩ =
      .done ⟨i + name.length, decide (atSign ∈ name), decide (dot ∈ name)⟩ := by
  have hstart : Scanned m i name name.length ⟨i, false, false⟩ := ⟨[], name, rfl, rfl, by simp, h⟩
  refine loop_total (R := Scanned m i name) (P := fun o : Outcome MemFault NameScan => o =
    .done ⟨i + name.length, decide (atSign ∈ name), decide (dot ∈ name)⟩) ?_ n _ _ hstart hn
  intro k x hx
  rcases hx.pass with hgo | ⟨hstop, rfl⟩
  · exact Or.inl hgo
  · exact Or.inr (Or.inl ⟨_, hstop, rfl⟩)

/-- The kernel takes the beginning of the string. -/
theorem prctlSetName_str (h : CStr m i name) : prctlSetName m i = .done (name.take commLength) := by
  obtain ⟨h0, rest, hrest⟩ := h
  rw [prctlSetName, hrest, Chars.strncpyCells_str h0, Outcome.done_bind, Outcome.pure_eq]
  have htake : ∀ b ∈ name.take commLength, decide (b ≠ 0) = true := by
    intro b hb
    simpa using ne_of_mem_of_not_mem (List.mem_of_mem_take hb) h0
  rw [List.takeWhile_append_of_pos htake]
  cases commLength - name.length <;> simp [List.replicate_succ]

/-- How far into a name the pointer goes that the kernel gets. -/
def commStart (name : List Byte) : ℕ :=
  if signed 32 name.length < 15 ∨ atSign ∈ name ∨ dot ∉ name then 0
  else (signed 32 name.length - 15).toNat

/-- The length is not less than what becomes of it as an `int`. -/
theorem signed_length_le (n : ℕ) : signed 32 n ≤ n := by
  have hlt := (inSigned_signed 32 n).2
  rcases lt_or_ge (2 * (n : ℤ)) (2 ^ 32) with hn | hn
  · rw [signed_of_inSigned ⟨by omega, hn⟩]
  · omega

theorem commStart_cases (name : List Byte) :
    commStart name = 0 ∨ commStart name + 15 ≤ name.length := by
  have hle := signed_length_le name.length
  unfold commStart
  split
  case isTrue => exact Or.inl rfl
  case isFalse hlong =>
    simp only [not_or] at hlong
    omega

theorem setThreadName_eq (h : CStr m i name) (hn : name.length < n) :
    setThreadName n m i = .done ((name.drop (commStart name)).take commLength) := by
  have hpointer : (if signed 32 name.length < 15 ∨ atSign ∈ name ∨ dot ∉ name then i
      else ((i : ℤ) + signed 32 name.length - 15).toNat) = i + commStart name := by
    unfold commStart
    split
    case isTrue => rfl
    case isFalse hlong =>
      simp only [not_or] at hlong
      omega
  have hle : commStart name ≤ name.length := by
    rcases commStart_cases name with h | h <;> omega
  have htail : CStr m (i + (name.take (commStart name)).length) (name.drop (commStart name)) := by
    refine CStr.drop ?_
    rwa [List.take_append_drop]
  rw [List.length_take, min_eq_left hle] at htail
  simp only [setThreadName, nameLoop h hn, Outcome.done_bind, Nat.cast_add, add_sub_cancel_left,
    decide_eq_true_eq, hpointer]
  exact prctlSetName_str htail

/-- The loop never leaves the name, and the kernel gets 15 bytes that stand in it, or all of it if it has
    fewer: if it is shorter than 2^31 bytes, the last ones of a name with a dot and without an `@`, the
    first ones of any other. -/
theorem setThreadName_part (h : CStr m i name) (hn : name.length < n) : ∃ comm,
    setThreadName n m i = .done comm ∧ comm.length = min 15 name.length ∧ comm <:+: name ∧
      (name.length < 2 ^ 31 → if dot ∈ name ∧ atSign ∉ name then comm <:+ name else comm <+: name) := by
  refine ⟨_, setThreadName_eq h hn, ?_, ?_, ?_⟩
  · rw [List.length_take, List.length_drop, commLength]
    rcases commStart_cases name with hstart | hstart <;> omega
  · exact (List.take_prefix _ _).isInfix.trans (List.drop_suffix _ _).isInfix
  · intro hint
    have hlen : signed 32 name.length = name.length := signed_of_inSigned ⟨by omega, by omega⟩
    split
    case isTrue hdot =>
      have hend : (name.drop (commStart name)).length ≤ commLength := by
        unfold commStart commLength
        rw [hlen, List.length_drop]
        simp only [hdot, not_true_eq_false, or_false]
        split <;> omega
      rw [List.take_of_length_le hend]
      exact List.drop_suffix _ _
    case isFalse hno =>
      have hstart : commStart name = 0 := by
        refine if_pos ?_
        by_cases hat : atSign ∈ name
        · exact Or.inr (Or.inl hat)
        · exact Or.inr (Or.inr fun hdot => hno ⟨hdot, hat⟩)
      rw [hstart]
      exact List.take_prefix _ _

/-- `com.nan.thread.worker`, in an array of its own. -/
def workerName : List Byte :=
  ['c', 'o', 'm', '.', 'n', 'a', 'n', '.', 't', 'h', 'r', 'e', 'a', 'd', '.', 'w', 'o', 'r', 'k', 'e',
    'r'].map Char.toUInt8

theorem setThreadName_worker : ∃ comm,
    setThreadName 22 (workerName.map some ++ [some 0]) 0 = .done comm ∧
      comm.length = min 15 workerName.length ∧ comm <:+: workerName ∧
      (workerName.length < 2 ^ 31 →
        if dot ∈ workerName ∧ atSign ∉ workerName then comm <:+ workerName else comm <+: workerName) :=
  setThreadName_part ⟨by decide, [], rfl⟩ (by decide)

end ThreadManager
