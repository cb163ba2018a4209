import ThreadManager.Schemes.Outcome

/-! C strings in arrays of `char`, and lines of text files.

    A cell of an array holds a byte, or nothing as long as nothing was written to it; reading such a
    cell and going beyond the array are faults. A pointer into an array is an index. The functions of
    string.h and stdio.h are recursions on the cells they read. `CStr m i s` says that the string `s`
    begins at `i`, and there is one lemma for what each function does with such a string. -/

namespace Schemes

/-- `char`. -/
abbrev Byte := UInt8

/-- An array of `char`. -/
abbrev Chars := List (Option Byte)

/-- An access goes wrong: it is beyond the array, or reads a cell that was never written. -/
inductive MemFault where
  | outOfBounds
  | uninitialised
  deriving DecidableEq, Repr

/-- `'\n'`. -/
def newline : Byte := 10

namespace Chars

/-- `m[i] = b`. -/
def write (m : Chars) (i : ℕ) (b : Byte) : Outcome MemFault Chars :=
  if i < m.length then .done (m.set i (some b)) else .fault .outOfBounds

/-- The bytes of `s` written from the beginning of the array on. -/
def fill (m : Chars) (s : List Byte) : Outcome MemFault Chars :=
  if s.length ≤ m.length then .done (s.map some ++ m.drop s.length) else .fault .outOfBounds

/-- `strlen` on the cells from the pointer on. -/
def strlenCells : Chars → Outcome MemFault ℕ
  | [] => .fault .outOfBounds
  | none :: _ => .fault .uninitialised
  | some b :: m => if b = 0 then .done 0 else do return (← strlenCells m) + 1

def strlen (m : Chars) (i : ℕ) : Outcome MemFault ℕ := strlenCells (m.drop i)

/-- `strcmp` with a constant string, as the sign of its result. -/
def strcmpCells : Chars → List Byte → Outcome MemFault Ordering
  | [], _ => .fault .outOfBounds
  | none :: _, _ => .fault .uninitialised
  | some b :: _, [] => .done (if b = 0 then .eq else .gt)
  | some b :: m, c :: s => if b = c then strcmpCells m s else .done (if b < c then .lt else .gt)

def strcmp (m : Chars) (i : ℕ) (s : List Byte) : Outcome MemFault Ordering :=
  strcmpCells (m.drop i) s

/-- `n` bytes. -/
def readCells : ℕ → Chars → Outcome MemFault (List Byte)
  | 0, _ => .done []
  | _ + 1, [] => .fault .outOfBounds
  | _ + 1, none :: _ => .fault .uninitialised
  | n + 1, some b :: m => do return b :: (← readCells n m)

/-- `n` bytes from `m + i` on. -/
def read (m : Chars) (i n : ℕ) : Outcome MemFault (List Byte) := readCells n (m.drop i)

/-- `m[i]`. -/
def byteAt (m : Chars) (i : ℕ) : Outcome MemFault Byte :=
  match m[i]? with
  | none => .fault .outOfBounds
  | some none => .fault .uninitialised
  | some (some b) => .done b

/-- How far the first byte of `delim` is, if one comes before the end of the string. -/
def findCells (delim : List Byte) : Chars → Outcome MemFault (Option ℕ)
  | [] => .fault .outOfBounds
  | none :: _ => .fault .uninitialised
  | some b :: m =>
    if b = 0 then .done none
    else if b ∈ delim then .done (some 0)
    else do return (← findCells delim m).map (· + 1)

/-- `strsep`: the token, the new `*stringp`, and the array in which the delimiter is overwritten. -/
def strsep (m : Chars) (stringp : Option ℕ) (delim : List Byte) :
    Outcome MemFault (Option ℕ × Option ℕ × Chars) :=
  match stringp with
  | none => .done (none, none, m)
  | some i => do
    match ← findCells delim (m.drop i) with
    | none => return (some i, none, m)
    | some k => return (some i, some (i + k + 1), m.set (i + k) (some 0))

@[simp] theorem strsep_null {m : Chars} {delim : List Byte} :
    strsep m none delim = .done (none, none, m) := rfl

/-- The bytes `strncpy` writes: those of the string, and NULs if it is shorter than `n`. -/
def strncpyCells : ℕ → Chars → Outcome MemFault (List Byte)
  | 0, _ => .done []
  | _ + 1, [] => .fault .outOfBounds
  | _ + 1, none :: _ => .fault .uninitialised
  | n + 1, some b :: m =>
    if b = 0 then .done (List.replicate (n + 1) 0) else do return b :: (← strncpyCells n m)

/-- `strncpy(dst, m + i, n)`. -/
def strncpy (dst m : Chars) (i n : ℕ) : Outcome MemFault Chars := do
  dst.fill (← strncpyCells n (m.drop i))

end Chars

/-! ### Reading lines -/

/-- At most `n` bytes of a file, up to the first newline, and what is left of it. -/
def fgetsLine : ℕ → List Byte → List Byte × List Byte
  | 0, s => ([], s)
  | _ + 1, [] => ([], [])
  | n + 1, b :: s =>
    if b = newline then ([b], s) else (b :: (fgetsLine n s).1, (fgetsLine n s).2)

/-- `fgets`, with the bytes of the file that are left; `none` is NULL. -/
def fgets (m : Chars) (size : ℕ) (fp : List Byte) :
    Outcome MemFault (Option (Chars × List Byte)) :=
  match fgetsLine (size - 1) fp with
  | ([], _) => .done none
  | (l, fp) => do return some (← m.fill (l ++ [0]), fp)

/-- A byte put in front of the first piece. -/
def consFirst (b : Byte) : List (List Byte) → List (List Byte)
  | [] => [[b]]
  | p :: ps => (b :: p) :: ps

/-- A text cut after every newline and after every `n` bytes without one; the piece that is begun has
    room for `room` bytes. -/
def pieces (n : ℕ) : ℕ → List Byte → List (List Byte)
  | _, [] => []
  | room, b :: s =>
    if b = newline ∨ room ≤ 1 then [b] :: pieces n n s else consFirst b (pieces n (room - 1) s)

/-- The bytes up to the first `d`, and those behind it if there is one. -/
def sep (d : Byte) : List Byte → List Byte × Option (List Byte)
  | [] => ([], none)
  | b :: s => if b = d then ([], some s) else (b :: (sep d s).1, (sep d s).2)

section Text

variable {n room : ℕ} {d : Byte} {s t x y : List Byte}

/-- Of a line that may be longer, `fgets` reads the first `n` bytes. -/
theorem fgetsLine_take (h : newline ∉ t) : fgetsLine n (t ++ newline :: s) =
    ((t ++ [newline]).take n, (t ++ [newline]).drop n ++ s) := by
  induction t generalizing n with
  | nil =>
    cases n with
    | zero => rfl
    | succ n => simp [fgetsLine]
  | cons b t ih =>
    obtain ⟨hb, ht⟩ := List.ne_and_not_mem_of_not_mem_cons h
    cases n with
    | zero => simp [fgetsLine]
    | succ n =>
      rw [List.cons_append, fgetsLine, if_neg (Ne.symm hb), ih ht]
      rfl

theorem fgetsLine_append (n : ℕ) (s : List Byte) : (fgetsLine n s).1 ++ (fgetsLine n s).2 = s := by
  induction s generalizing n with
  | nil => cases n <;> rfl
  | cons b s ih =>
    cases n with
    | zero => rfl
    | succ n =>
      rw [fgetsLine]
      split
      · rfl
      · exact congrArg (b :: ·) (ih n)

theorem fgetsLine_length (n : ℕ) (s : List Byte) : (fgetsLine n s).1.length ≤ n := by
  induction s generalizing n with
  | nil => cases n <;> simp [fgetsLine]
  | cons b s ih =>
    cases n with
    | zero => simp [fgetsLine]
    | succ n =>
      rw [fgetsLine]
      split
      · simp
      · simpa using ih n

theorem fgetsLine_eq_nil (hn : 1 ≤ n) : (fgetsLine n s).1 = [] ↔ s = [] := by
  obtain ⟨k, rfl⟩ := Nat.exists_eq_add_of_le' hn
  cases s with
  | nil => simp [fgetsLine]
  | cons b s =>
    rw [fgetsLine]
    split <;> simp

theorem fgets_eof (m : Chars) (n : ℕ) : fgets m n [] = .done none := by
  unfold fgets
  cases n - 1 <;> rfl

theorem fgets_eq {m : Chars} (h : (fgetsLine (n - 1) s).1 ≠ []) : fgets m n s =
    m.fill ((fgetsLine (n - 1) s).1 ++ [0]) >>= fun m => .done (some (m, (fgetsLine (n - 1) s).2)) := by
  unfold fgets
  split
  case h_1 heq =>
    rw [heq] at h
    exact absurd rfl h
  case h_2 heq =>
    rw [heq]
    rfl

/-- A piece that is not the end of the file ends with a newline or is full. -/
theorem fgetsLine_full (h : (fgetsLine n s).2 ≠ []) :
    (fgetsLine n s).1.getLast? = some newline ∨ (fgetsLine n s).1.length = n := by
  induction s generalizing n with
  | nil => cases n <;> simp [fgetsLine] at h
  | cons b s ih =>
    cases n with
    | zero => simp [fgetsLine]
    | succ n =>
      rw [fgetsLine] at h ⊢
      split
      case isTrue hb => simp [hb]
      case isFalse hb =>
        rw [if_neg hb] at h
        rcases ih h with hlast | hlen
        · left
          rw [List.getLast?_cons, hlast]
          rfl
        · right
          simpa using hlen

/-- The pieces of a text are what `fgets` returns one after the other. -/
theorem pieces_eq (hs : s ≠ []) (hroom : 1 ≤ room) :
    pieces n room s = (fgetsLine room s).1 :: pieces n n (fgetsLine room s).2 := by
  induction s generalizing room with
  | nil => exact absurd rfl hs
  | cons b s ih =>
    obtain ⟨k, rfl⟩ := Nat.exists_eq_add_of_le' hroom
    rw [pieces, fgetsLine, Nat.add_sub_cancel]
    by_cases hb : b = newline
    · rw [if_pos (Or.inl hb), if_pos hb]
    · rw [if_neg hb]
      rcases Nat.eq_zero_or_pos k with rfl | hk
      · simp [fgetsLine]
      · rw [if_neg (by simp [hb]; omega)]
        by_cases hnil : s = []
        · subst hnil
          obtain ⟨j, rfl⟩ := Nat.exists_eq_add_of_le' hk
          simp [fgetsLine, pieces, consFirst]
        · rw [ih hnil hk]
          rfl

theorem sep_of_notMem (h : d ∉ s) : sep d s = (s, none) := by
  induction s with
  | nil => rfl
  | cons b s ih =>
    obtain ⟨hb, hs⟩ := List.ne_and_not_mem_of_not_mem_cons h
    rw [sep, if_neg (Ne.symm hb), ih hs]

theorem sep_append (h : d ∉ x) : sep d (x ++ d :: y) = (x, some y) := by
  induction x with
  | nil => simp [sep]
  | cons b x ih =>
    obtain ⟨hb, hx⟩ := List.ne_and_not_mem_of_not_mem_cons h
    rw [List.cons_append, sep, if_neg (Ne.symm hb), ih hx]

/-- Either there is no `d`, or the string is cut at the first one. -/
theorem sep_cases (d : Byte) (s : List Byte) : (d ∉ s ∧ sep d s = (s, none)) ∨
    ∃ x y, s = x ++ d :: y ∧ d ∉ x ∧ sep d s = (x, some y) := by
  by_cases h : d ∈ s
  · obtain ⟨x, y, rfl, hx⟩ := List.eq_append_cons_of_mem h
    exact Or.inr ⟨x, y, rfl, hx, sep_append hx⟩
  · exact Or.inl ⟨h, sep_of_notMem h⟩

/-- What comes before the first `d` in the first `n` bytes. -/
theorem sep_take : (sep d (s.take n)).1 = s.take (min (s.idxOf d) n) := by
  induction s generalizing n with
  | nil => simp [sep]
  | cons b s ih =>
    cases n with
    | zero => simp [sep]
    | succ n =>
      rw [List.take_succ_cons, sep]
      by_cases hb : b = d
      · simp [hb]
      · rw [if_neg hb, List.idxOf_cons_ne _ hb, ih, Nat.succ_eq_add_one, Nat.add_min_add_right,
          List.take_succ_cons]

/-- Of a string that was cut, the first `n` bytes are those of the whole one if the cut is behind them or
    behind the string. -/
theorem take_take_eq_iff {k : ℕ} : (s.take k).take n = s.take n ↔ n ≤ k ∨ s.length ≤ k := by
  rw [List.take_take]
  constructor
  · intro h
    have hlen := congrArg List.length h
    rw [List.length_take, List.length_take] at hlen
    omega
  · rintro (h | h)
    · rw [min_eq_left h]
    · rcases le_total n k with hn | hn
      · rw [min_eq_left hn]
      · rw [min_eq_right hn, List.take_of_length_le h, List.take_of_length_le (h.trans hn)]

end Text

/-! ### Strings in arrays -/

/-- At `i` begins the string `s`: its bytes, none of them NUL, and a NUL. -/
def CStr (m : Chars) (i : ℕ) (s : List Byte) : Prop :=
  0 ∉ s ∧ ∃ rest, m.drop i = s.map some ++ some 0 :: rest

namespace Chars

variable {m dst : Chars} {i n : ℕ} {b d : Byte} {s t x y : List Byte} {rest delim : List Byte}

theorem strlenCells_str {rest : Chars} (hs : 0 ∉ s) :
    strlenCells (s.map some ++ some 0 :: rest) = .done s.length := by
  induction s with
  | nil => simp [strlenCells]
  | cons b s ih =>
    obtain ⟨hb, hs⟩ := List.ne_and_not_mem_of_not_mem_cons hs
    rw [List.map_cons, List.cons_append, strlenCells, if_neg (Ne.symm hb), ih hs]
    rfl

theorem strcmpCells_str {rest : Chars} (hs : 0 ∉ s) (ht : 0 ∉ t) :
    ∃ o, strcmpCells (s.map some ++ some 0 :: rest) t = .done o ∧ (o = .eq ↔ s = t) := by
  induction s generalizing t with
  | nil =>
    cases t with
    | nil => simp [strcmpCells]
    | cons c t =>
      obtain ⟨hc, -⟩ := List.ne_and_not_mem_of_not_mem_cons ht
      refine ⟨_, if_neg hc, ?_⟩
      split <;> simp
  | cons b s ih =>
    obtain ⟨hb, hs⟩ := List.ne_and_not_mem_of_not_mem_cons hs
    cases t with
    | nil =>
      refine ⟨_, rfl, ?_⟩
      simp [Ne.symm hb]
    | cons c t =>
      obtain ⟨-, ht⟩ := List.ne_and_not_mem_of_not_mem_cons ht
      rw [List.map_cons, List.cons_append, strcmpCells]
      by_cases hbc : b = c
      · obtain ⟨o, ho, hiff⟩ := ih hs ht
        rw [if_pos hbc]
        exact ⟨o, ho, by simp [hiff, hbc]⟩
      · rw [if_neg hbc]
        refine ⟨_, rfl, ?_⟩
        split <;> simp [hbc]

theorem findCells_none {rest : Chars} (hs : 0 ∉ s) (hd : ∀ b ∈ s, b ∉ delim) :
    findCells delim (s.map some ++ some 0 :: rest) = .done none := by
  induction s with
  | nil => simp [findCells]
  | cons b s ih =>
    obtain ⟨hb, hs⟩ := List.ne_and_not_mem_of_not_mem_cons hs
    obtain ⟨hbd, hd⟩ := List.forall_mem_cons.mp hd
    rw [List.map_cons, List.cons_append, findCells, if_neg (Ne.symm hb), if_neg hbd, ih hs hd]
    rfl

theorem findCells_some {rest : Chars} (hx : 0 ∉ x) (hxd : ∀ b ∈ x, b ∉ delim) (hd : d ≠ 0)
    (hmem : d ∈ delim) : findCells delim (x.map some ++ some d :: rest) = .done (some x.length) := by
  induction x with
  | nil => simp [findCells, hd, hmem]
  | cons b x ih =>
    obtain ⟨hb, hx⟩ := List.ne_and_not_mem_of_not_mem_cons hx
    obtain ⟨hbd, hxd⟩ := List.forall_mem_cons.mp hxd
    rw [List.map_cons, List.cons_append, findCells, if_neg (Ne.symm hb), if_neg hbd, ih hx hxd]
    rfl

theorem readCells_map {rest : Chars} : readCells s.length (s.map some ++ rest) = .done s := by
  induction s with
  | nil => rfl
  | cons b s ih =>
    rw [List.length_cons, List.map_cons, List.cons_append, readCells, ih]
    rfl

theorem strncpyCells_str {rest : Chars} (hs : 0 ∉ s) :
    strncpyCells n (s.map some ++ some 0 :: rest) =
      .done (s.take n ++ List.replicate (n - s.length) 0) := by
  induction s generalizing n with
  | nil => cases n <;> simp [strncpyCells]
  | cons b s ih =>
    obtain ⟨hb, hs⟩ := List.ne_and_not_mem_of_not_mem_cons hs
    cases n with
    | zero => simp [strncpyCells]
    | succ n =>
      rw [List.map_cons, List.cons_append, strncpyCells, if_neg (Ne.symm hb), ih hs]
      simp

end Chars

namespace CStr

open Chars

variable {m dst : Chars} {i n : ℕ} {b d : Byte} {s t x y delim : List Byte}

theorem length_lt (h : CStr m i s) : i + s.length < m.length := by
  obtain ⟨-, rest, hrest⟩ := h
  have hlen := congrArg List.length hrest
  simp only [List.length_drop, List.length_append, List.length_map, List.length_cons] at hlen
  omega

theorem strlen (h : CStr m i s) : strlen m i = .done s.length := by
  obtain ⟨hs, rest, hrest⟩ := h
  rw [Chars.strlen, hrest, strlenCells_str hs]

/-- Only one string begins at a pointer. -/
theorem unique (hs : CStr m i s) (ht : CStr m i t) : s = t := by
  have hlen : s.length = t.length := Outcome.done.inj (hs.strlen.symm.trans ht.strlen)
  obtain ⟨-, r, hr⟩ := hs
  obtain ⟨-, r', hr'⟩ := ht
  have hmap := (List.append_inj (hr.symm.trans hr') (by simpa using hlen)).1
  exact List.map_injective_iff.mpr (Option.some_injective _) hmap

theorem strcmp (h : CStr m i s) (ht : 0 ∉ t) : ∃ o, strcmp m i t = .done o ∧ (o = .eq ↔ s = t) := by
  obtain ⟨hs, rest, hrest⟩ := h
  rw [Chars.strcmp, hrest]
  exact strcmpCells_str hs ht

/-- The part of a string from one of its bytes on. -/
theorem drop (h : CStr m i (x ++ y)) : CStr m (i + x.length) y := by
  obtain ⟨hs, rest, hrest⟩ := h
  refine ⟨fun h0 => hs (List.mem_append_right _ h0), rest, ?_⟩
  rw [← List.drop_drop, hrest, List.map_append, List.append_assoc]
  simp

theorem byteAt_head (h : CStr m i (b :: s)) : byteAt m i = .done b := by
  obtain ⟨-, rest, hrest⟩ := h
  have hget : m[i]? = some (some b) := by
    have hhead := congrArg List.head? hrest
    rwa [List.head?_drop] at hhead
  rw [byteAt, hget]

theorem byteAt_end (h : CStr m i []) : byteAt m i = .done 0 := by
  obtain ⟨-, rest, hrest⟩ := h
  have hget : m[i]? = some (some 0) := by
    have hhead := congrArg List.head? hrest
    rwa [List.head?_drop] at hhead
  rw [byteAt, hget]

/-- A write in front of a string does not touch it. -/
theorem set_of_lt {j : ℕ} {v : Option Byte} (h : CStr m i s) (hj : j < i) : CStr (m.set j v) i s := by
  obtain ⟨hs, rest, hrest⟩ := h
  refine ⟨hs, rest, ?_⟩
  rw [List.drop_set_of_lt hj, hrest]

theorem tail (h : CStr m i (b :: s)) : CStr m (i + 1) s := by
  obtain ⟨hs, rest, hrest⟩ := h
  refine ⟨List.not_mem_of_not_mem_cons hs, rest, ?_⟩
  rw [← List.drop_drop, hrest]
  rfl

/-- A byte overwritten with NUL makes two strings of one. -/
theorem cut (h : CStr m i (x ++ b :: y)) : CStr (m.set (i + x.length) (some 0)) i x ∧
    CStr (m.set (i + x.length) (some 0)) (i + x.length + 1) y := by
  obtain ⟨hs, rest, hrest⟩ := h
  simp only [List.mem_append, List.mem_cons, not_or] at hs
  obtain ⟨hx, -, hy⟩ := hs
  simp only [List.map_append, List.map_cons, List.append_assoc, List.cons_append] at hrest
  refine ⟨⟨hx, y.map some ++ some 0 :: rest, ?_⟩, hy, rest, ?_⟩
  · rw [List.drop_set, if_neg (by omega), Nat.add_sub_cancel_left, hrest,
      List.set_append_right _ _ (by simp)]
    simp
  · rw [List.drop_set, if_pos (by omega), add_assoc, ← List.drop_drop, hrest,
      List.drop_append]
    simp

theorem strsep_none (h : CStr m i s) (hd : ∀ b ∈ s, b ∉ delim) :
    strsep m (some i) delim = .done (some i, none, m) := by
  obtain ⟨hs, rest, hrest⟩ := h
  simp only [strsep, hrest, findCells_none hs hd]
  rfl

theorem strsep_some (h : CStr m i (x ++ d :: y)) (hd : d ∈ delim) (hx : ∀ b ∈ x, b ∉ delim) :
    strsep m (some i) delim =
      .done (some i, some (i + x.length + 1), m.set (i + x.length) (some 0)) := by
  obtain ⟨hs, rest, hrest⟩ := h
  simp only [List.mem_append, List.mem_cons, not_or] at hs
  obtain ⟨hx0, hd0, -⟩ := hs
  simp only [List.map_append, List.map_cons, List.append_assoc, List.cons_append] at hrest
  simp only [strsep, hrest, findCells_some hx0 hx (Ne.symm hd0) hd]
  rfl

/-- A `strncpy` that leaves room for a NUL behind what it copies, and the NUL. -/
theorem strncpy_write (h : CStr m i s) (hn : n < dst.length) : ∃ dst',
    (strncpy dst m i n >>= fun dst => write dst n 0) = .done dst' ∧ CStr dst' 0 (s.take n) := by
  obtain ⟨hs, rest, hrest⟩ := h
  have hlen : (s.take n ++ List.replicate (n - s.length) 0).length = n := by
    rw [List.length_append, List.length_take, List.length_replicate]
    omega
  have hfill : strncpy dst m i n = .done
      ((s.take n ++ List.replicate (n - s.length) 0).map some ++ dst.drop n) := by
    rw [strncpy, hrest, strncpyCells_str hs, Outcome.done_bind, fill, hlen, if_pos hn.le]
  rw [hfill, Outcome.done_bind, write, if_pos (by simp; omega)]
  refine ⟨_, rfl, fun h0 => hs (List.mem_of_mem_take h0), ?_⟩
  rw [List.set_append_right _ _ (by rw [List.length_map, hlen]), List.length_map, hlen,
    Nat.sub_self, List.drop_eq_getElem_cons hn, List.set_cons_zero]
  rcases Nat.eq_zero_or_pos (n - s.length) with hk | hk
  · rw [hk]
    simp
  · obtain ⟨k, hk⟩ := Nat.exists_eq_add_of_le' hk
    rw [hk, List.replicate_succ]
    simp

end CStr

end Schemes
