import ThreadManager.Schemes.CString

/-! `getSchedulerGroup` of sched_policy.c, in the build with the real implementation.

    The function reads `/proc/<pid>/cgroup` line by line and copies the path of the line for cpu. It
    reads into a buffer that takes 254 bytes at once, and what it looks at is therefore not a line but
    a piece of one; it takes the group from the second colon of the piece to the third, if there is
    one, and drops the first and the last byte of that. -/

namespace ThreadManager
open Schemes

def colon : Byte := ':'.toUInt8

def slash : Byte := '/'.toUInt8

def ascii (s : List Char) : List Byte := s.map Char.toUInt8

/-- `"cpu"`. -/
def cpu : List Byte := ascii ['c', 'p', 'u']

/-- The end of the loop body, from `grp++` on. With an empty `grp` the index `len - 1` wraps around, and
    the NUL is written to the byte in front of `grp`, the one that was dropped. -/
def copyGroup (buf : Chars) (bufLen : ℕ) (lineBuf : Chars) (grp : ℕ) :
    Outcome MemFault (ℤ × Chars) := do
  let grp := grp + 1
  let len ← lineBuf.strlen grp
  let lineBuf ← lineBuf.write (grp + len - 1) 0
  let len := if bufLen ≤ len then bufLen - 1 else len
  let buf ← Chars.strncpy buf lineBuf grp len >>= fun buf => buf.write len 0
  return (0, buf)

/-- The size of `lineBuf`. -/
def lineBufSize : ℕ := 256

/-- A pass of the loop, on `lineBuf` and what is left of the file; `inr` is a return. -/
def groupPass (buf : Chars) (bufLen : ℕ) :
    Chars × List Byte → Outcome MemFault ((Chars × List Byte) ⊕ (ℤ × Chars))
  | (lineBuf, fp) => do
    match ← fgets lineBuf (lineBufSize - 1) fp with
    | none => return .inr (-1, buf)
    | some (lineBuf, fp) =>
      let (first, next, lineBuf) ← lineBuf.strsep (some 0) [colon]
      if first = none then return .inr (-1, buf)
      else
        let (subsys, next, lineBuf) ← lineBuf.strsep next [colon]
        match subsys with
        | none => return .inr (-1, buf)
        | some subsys =>
          if (← lineBuf.strcmp subsys cpu) ≠ .eq then return .inl (lineBuf, fp)
          else
            let (grp, _, lineBuf) ← lineBuf.strsep next [colon]
            match grp with
            | none => return .inr (-1, buf)
            | some grp => return .inr (← copyGroup buf bufLen lineBuf grp)

/-- `getSchedulerGroup`. What `proc` gives for `tid` is the content of `/proc/<tid>/cgroup`, if it can
    be opened. -/
def getSchedulerGroup (n : ℕ) (proc : ℤ → Option (List Byte)) (tid : ℤ) (buf : Chars) (bufLen : ℕ) :
    Outcome MemFault (ℤ × Chars) :=
  match proc tid with
  | none => .done (-1, buf)
  | some fp => loop (groupPass buf bufLen) n (List.replicate lineBufSize none, fp)

/-! ### Pieces of the file -/

/-- What the loop makes of a piece: it goes on, it finds too few colons, or it takes the group from
    what stands behind `:cpu:`. -/
inductive PieceKind where
  | passed
  | bad
  | group (rest : List Byte)
  deriving DecidableEq, Repr

def pieceKind (c : List Byte) : PieceKind :=
  match (sep colon c).2 with
  | none => .bad
  | some y =>
    if (sep colon y).1 ≠ cpu then .passed
    else match (sep colon y).2 with
      | none => .bad
      | some u => .group u

/-- The first piece at which the loop ends. -/
def deciding (file : List Byte) : Option PieceKind :=
  ((pieces 254 254 file).map pieceKind).find? (· ≠ .passed)

/-- The bytes of the group and one more behind it: the first byte is dropped without a look at it, and
    so a colon there does not end the group. -/
def groupText : List Byte → List Byte
  | [] => []
  | b :: u => if b = colon then u else (sep colon u).1

variable {buf m : Chars} {bufLen grp i j n : ℕ} {c u w x y fp : List Byte}

/-- `lineBuf` in the loop: `fgets` leaves its last cell alone. -/
def LastUnset (m : Chars) : Prop := m.length = lineBufSize ∧ m[255]? = some none

theorem LastUnset.set (h : LastUnset m) (hi : i < 255) (v : Option Byte) :
    LastUnset (m.set i v) := by
  obtain ⟨hlen, hlast⟩ := h
  refine ⟨by rw [List.length_set, hlen], ?_⟩
  rw [List.getElem?_set_ne (by omega), hlast]

theorem LastUnset.fill (h : LastUnset m) (hc : c.length ≤ 255) :
    ∃ m', m.fill c = .done m' ∧ LastUnset m' ∧ m' = c.map some ++ m.drop c.length := by
  obtain ⟨hlen, hlast⟩ := h
  unfold lineBufSize at hlen
  refine ⟨_, if_pos (by omega), ⟨?_, ?_⟩, rfl⟩
  · rw [List.length_append, List.length_map, List.length_drop, hlen, lineBufSize]
    omega
  · rw [List.getElem?_append_right (by simpa using hc), List.getElem?_drop, List.length_map,
      Nat.add_sub_cancel' hc, hlast]

/-! ### Copying the group -/

theorem copyGroup_str (h : CStr m (grp + 1) w) (hpos : 1 ≤ bufLen) (hbuf : bufLen ≤ buf.length) :
    ∃ buf', copyGroup buf bufLen m grp = .done (0, buf') ∧
      CStr buf' 0 (w.dropLast.take (bufLen - 1)) := by
  have hbound := h.length_lt
  have hcut : CStr (m.set (grp + 1 + w.length - 1) (some 0)) (grp + 1) w.dropLast := by
    rcases List.eq_nil_or_concat w with rfl | ⟨v, b, rfl⟩
    · exact h.set_of_lt (by simp)
    · rw [List.concat_eq_append] at h ⊢
      have hcut := h.cut.1
      rwa [List.dropLast_concat, List.length_append, List.length_singleton, ← add_assoc,
        Nat.add_sub_cancel]
  have hshort : (if bufLen ≤ w.length then bufLen - 1 else w.length) < buf.length := by
    split <;> omega
  obtain ⟨buf', hrun, hstr⟩ := hcut.strncpy_write hshort
  have htake : w.dropLast.take (if bufLen ≤ w.length then bufLen - 1 else w.length) =
      w.dropLast.take (bufLen - 1) := by
    split
    case isTrue => rfl
    case isFalse hgt =>
      rw [List.take_of_length_le (by simp), List.take_of_length_le]
      rw [List.length_dropLast]
      omega
  rw [htake] at hstr
  refine ⟨buf', ?_, hstr⟩
  simp only [copyGroup, h.strlen, Outcome.done_bind]
  rw [Chars.write, if_pos (by omega), Outcome.done_bind, hrun]
  rfl

/-- A group behind the end of a full buffer is read from a cell that was never written. -/
theorem copyGroup_unset (h : LastUnset m) (hgrp : grp = 254) :
    copyGroup buf bufLen m grp = .fault .uninitialised := by
  have hdrop : m.drop (254 + 1) = none :: m.drop (255 + 1) := by
    have hlt : 255 < m.length := by rw [h.1, lineBufSize]; omega
    rw [List.drop_eq_getElem_cons hlt]
    have hget := h.2
    rw [List.getElem?_eq_getElem hlt, Option.some.injEq] at hget
    rw [hget]
  subst hgrp
  simp only [copyGroup, Chars.strlen, hdrop, Chars.strlenCells]
  rfl

/-- The third `strsep`, and the string behind the first byte of its token. -/
theorem strsep_group (h : CStr m j u) (hu : u ≠ []) : ∃ next m',
    m.strsep (some j) [colon] = .done (some j, next, m') ∧ CStr m' (j + 1) (groupText u) := by
  obtain ⟨b, u, rfl⟩ := List.exists_cons_of_ne_nil hu
  by_cases hb : b = colon
  · subst hb
    refine ⟨_, _, h.strsep_some (x := []) (by simp) (by simp), ?_⟩
    rw [groupText, if_pos rfl]
    exact (CStr.cut (x := []) h).2
  · rw [groupText, if_neg hb]
    rcases sep_cases colon u with ⟨hno, hsep⟩ | ⟨v, t, rfl, hno, hsep⟩
    · rw [hsep]
      refine ⟨_, _, h.strsep_none ?_, h.tail⟩
      simp only [List.mem_singleton, List.forall_mem_cons]
      exact ⟨hb, fun c hc => ne_of_mem_of_not_mem hc hno⟩
    · rw [hsep]
      have hx : ∀ c ∈ b :: v, c ∉ [colon] := by
        simp only [List.mem_singleton, List.forall_mem_cons]
        exact ⟨hb, fun c hc => ne_of_mem_of_not_mem hc hno⟩
      rw [← List.cons_append] at h
      exact ⟨_, _, h.strsep_some (by simp) hx, h.cut.1.tail⟩

/-! ### One pass -/

/-- What the function shows when its loop ends at a piece, or at the end of the file. If the piece ends
    behind its second colon, the byte behind that was never written. -/
def Verdict (buf : Chars) (bufLen : ℕ) : Option PieceKind → Outcome MemFault (ℤ × Chars) → Prop
  | some (.group u), o =>
    if u = [] then ∃ e, o = .fault e
    else ∃ buf', o = .done (0, buf') ∧ CStr buf' 0 ((groupText u).dropLast.take (bufLen - 1))
  | _, o => o = .done (-1, buf)

/-- What a pass shows for a piece of the given kind, with `fp` left of the file. -/
def PassEnds (buf : Chars) (bufLen : ℕ) (fp : List Byte) (k : PieceKind)
    (o : Outcome MemFault ((Chars × List Byte) ⊕ (ℤ × Chars))) : Prop :=
  if k = .passed then ∃ m, o = .done (.inl (m, fp)) ∧ LastUnset m
  else ∃ r, o = r >>= (fun b => .done (.inr b)) ∧ Verdict buf bufLen (some k) r

theorem strcmp_cpu (h : CStr m i w) : ∃ o, m.strcmp i cpu = .done o ∧ (o = .eq ↔ w = cpu) :=
  h.strcmp (by decide)

/-- The group of a piece that is whole: it ends with a newline or fills the buffer. -/
theorem copyGroup_verdict (h : CStr m j u) (hm : LastUnset m) (hpos : 1 ≤ bufLen)
    (hbuf : bufLen ≤ buf.length) (hfull : u = [] → j = 254) : ∃ next m',
    m.strsep (some j) [colon] = .done (some j, next, m') ∧
      Verdict buf bufLen (some (.group u)) (copyGroup buf bufLen m' j) := by
  by_cases hu : u = []
  · subst hu
    refine ⟨_, _, h.strsep_none (by simp), ?_⟩
    rw [copyGroup_unset hm (hfull rfl)]
    exact ⟨_, rfl⟩
  · obtain ⟨next, m', hsep, hstr⟩ := strsep_group h hu
    refine ⟨next, m', hsep, ?_⟩
    simp only [Verdict, if_neg hu]
    exact copyGroup_str hstr hpos hbuf

theorem pieceKind_bad (h : colon ∉ c) : pieceKind c = .bad := by
  simp only [pieceKind, sep_of_notMem h]

theorem pieceKind_two (hx : colon ∉ x) (hy : colon ∉ y) :
    pieceKind (x ++ colon :: y) = if y ≠ cpu then .passed else .bad := by
  simp only [pieceKind, sep_append hx, sep_of_notMem hy]

theorem pieceKind_three (hx : colon ∉ x) (hw : colon ∉ w) :
    pieceKind (x ++ colon :: (w ++ colon :: u)) = if w ≠ cpu then .passed else .group u := by
  simp only [pieceKind, sep_append hx, sep_append hw]

/-- The beginning of a line for another subsystem has no group. -/
theorem pieceKind_take (hx : colon ∉ x) (hw : colon ∉ w) (hcpu : w ≠ cpu) (n : ℕ) :
    pieceKind ((x ++ colon :: (w ++ colon :: u)).take n) = .passed ∨
      pieceKind ((x ++ colon :: (w ++ colon :: u)).take n) = .bad := by
  rcases Nat.lt_or_ge x.length n with hn | hn
  · obtain ⟨k, rfl⟩ := Nat.exists_eq_add_of_lt hn
    rw [List.take_append, List.take_of_length_le (by omega),
      show x.length + k + 1 - x.length = k + 1 by omega, List.take_succ_cons]
    rcases Nat.lt_or_ge w.length k with hk | hk
    · obtain ⟨j, rfl⟩ := Nat.exists_eq_add_of_lt hk
      left
      rw [List.take_append, List.take_of_length_le (by omega),
        show w.length + j + 1 - w.length = j + 1 by omega, List.take_succ_cons,
        pieceKind_three hx hw, if_pos hcpu]
    · rw [List.take_append_of_le_length hk,
        pieceKind_two hx fun h => hw (List.mem_of_mem_take h)]
      split
      · exact Or.inl rfl
      · exact Or.inr rfl
  · right
    rw [List.take_append_of_le_length hn]
    exact pieceKind_bad fun h => hx (List.mem_of_mem_take h)

theorem notMem_delim (h : colon ∉ x) : ∀ b ∈ x, b ∉ [colon] := fun _ hb =>
  List.mem_singleton.not.mpr (ne_of_mem_of_not_mem hb h)

section Piece

/-! `fgets` has read a piece, which is now the string at the beginning of `m₁`. -/

variable {m₁ : Chars} {fp₁ : List Byte}
  (hfgets : fgets m (lineBufSize - 1) fp = .done (some (m₁, fp₁))) (hm : LastUnset m₁)
include hfgets

theorem groupPass_one (h : CStr m₁ 0 c) (hc : colon ∉ c) :
    PassEnds buf bufLen fp₁ (pieceKind c) (groupPass buf bufLen (m, fp)) := by
  rw [pieceKind_bad hc]
  refine ⟨.done (-1, buf), ?_, rfl⟩
  simp only [groupPass, hfgets, Outcome.done_bind, h.strsep_none (notMem_delim hc),
    Chars.strsep_null]
  rfl

include hm

theorem groupPass_two (h : CStr m₁ 0 (x ++ colon :: y)) (hx : colon ∉ x) (hy : colon ∉ y)
    (hlen : (x ++ colon :: y).length ≤ 254) :
    PassEnds buf bufLen fp₁ (pieceKind (x ++ colon :: y)) (groupPass buf bufLen (m, fp)) := by
  have hfirst := h.strsep_some (List.mem_singleton_self colon) (notMem_delim hx)
  have hsecond := h.cut.2.strsep_none (notMem_delim hy)
  obtain ⟨o, ho, hiff⟩ := strcmp_cpu h.cut.2
  rw [pieceKind_two hx hy]
  by_cases hcpu : y = cpu
  · rw [if_neg (not_not.mpr hcpu)]
    refine ⟨.done (-1, buf), ?_, rfl⟩
    simp only [groupPass, hfgets, hfirst, hsecond, Outcome.done_bind, ho, hiff.mpr hcpu,
      Chars.strsep_null]
    rfl
  · rw [if_pos hcpu]
    rw [List.length_append, List.length_cons] at hlen
    refine ⟨_, ?_, hm.set (i := 0 + x.length) (by omega) (some 0)⟩
    simp only [groupPass, hfgets, hfirst, hsecond, Outcome.done_bind, ho]
    rw [if_pos (hiff.not.mpr hcpu)]
    rfl

theorem groupPass_three (h : CStr m₁ 0 (x ++ colon :: (w ++ colon :: u))) (hx : colon ∉ x)
    (hw : colon ∉ w) (hlen : (x ++ colon :: (w ++ colon :: u)).length ≤ 254)
    (hfull : u = [] → (x ++ colon :: (w ++ colon :: u)).length = 254) (hpos : 1 ≤ bufLen)
    (hbuf : bufLen ≤ buf.length) :
    PassEnds buf bufLen fp₁ (pieceKind (x ++ colon :: (w ++ colon :: u)))
      (groupPass buf bufLen (m, fp)) := by
  simp only [List.length_append, List.length_cons] at hlen hfull
  have hfirst := h.strsep_some (List.mem_singleton_self colon) (notMem_delim hx)
  have hsecond := h.cut.2.strsep_some (List.mem_singleton_self colon) (notMem_delim hw)
  have hm₃ := (hm.set (i := 0 + x.length) (by omega) (some 0)).set
    (i := 0 + x.length + 1 + w.length) (by omega) (some 0)
  obtain ⟨hstr, hrest⟩ := h.cut.2.cut
  obtain ⟨o, ho, hiff⟩ := strcmp_cpu hstr
  rw [pieceKind_three hx hw]
  by_cases hcpu : w = cpu
  · have hend : u = [] → 0 + x.length + 1 + w.length + 1 = 254 := by
      intro hu
      have hfull' := hfull hu
      rw [hu, List.length_nil] at hfull'
      omega
    rw [if_neg (not_not.mpr hcpu)]
    obtain ⟨next, m', hthird, hverdict⟩ := copyGroup_verdict hrest hm₃ hpos hbuf hend
    refine ⟨_, ?_, hverdict⟩
    simp only [groupPass, hfgets, hfirst, hsecond, hthird, Outcome.done_bind, ho, hiff.mpr hcpu]
    rfl
  · rw [if_pos hcpu]
    refine ⟨_, ?_, hm₃⟩
    simp only [groupPass, hfgets, hfirst, hsecond, Outcome.done_bind, ho]
    rw [if_pos (hiff.not.mpr hcpu)]
    rfl

/-- A piece that ends with a newline or fills the buffer. -/
theorem groupPass_piece (h : CStr m₁ 0 c) (hlen : c.length ≤ 254)
    (hfull : c.getLast? = some newline ∨ c.length = 254) (hpos : 1 ≤ bufLen)
    (hbuf : bufLen ≤ buf.length) :
    PassEnds buf bufLen fp₁ (pieceKind c) (groupPass buf bufLen (m, fp)) := by
  rcases sep_cases colon c with ⟨hc, -⟩ | ⟨x, y, rfl, hx, -⟩
  · exact groupPass_one hfgets h hc
  · rcases sep_cases colon y with ⟨hy, -⟩ | ⟨w, u, rfl, hw, -⟩
    · exact groupPass_two hfgets hm h hx hy hlen
    · refine groupPass_three hfgets hm h hx hw hlen ?_ hpos hbuf
      rintro rfl
      refine hfull.resolve_left ?_
      rw [List.append_cons, ← List.append_assoc, List.getLast?_concat]
      decide

end Piece

/-! ### The loop -/

/-- A text of lines: it ends with a newline, if it is not empty, and has no NUL. -/
def IsText (fp : List Byte) : Prop := 0 ∉ fp ∧ (fp = [] ∨ fp.getLast? = some newline)

theorem deciding_cons (hfp : fp ≠ []) : deciding fp =
    if pieceKind (fgetsLine 254 fp).1 = .passed then deciding (fgetsLine 254 fp).2
    else some (pieceKind (fgetsLine 254 fp).1) := by
  rw [deciding, pieces_eq hfp (by decide), List.map_cons, List.find?_cons]
  by_cases h : pieceKind (fgetsLine 254 fp).1 = .passed
  · simp [h, deciding]
  · simp [h]

theorem IsText.rest (h : IsText fp) : IsText (fgetsLine n fp).2 := by
  obtain ⟨h0, hend⟩ := h
  have happ := fgetsLine_append n fp
  refine ⟨fun hmem => h0 ?_, ?_⟩
  · rw [← happ]
    exact List.mem_append_right _ hmem
  · by_cases hnil : (fgetsLine n fp).2 = []
    · exact Or.inl hnil
    · right
      rcases hend with rfl | hend
      · exact absurd (List.append_eq_nil_iff.mp happ).2 hnil
      · rw [← happ, List.getLast?_append_of_ne_nil _ hnil] at hend
        exact hend

/-- What `fgets` reads of a text is a piece of it. -/
theorem fgets_piece (hm : LastUnset m) (hfp : fp ≠ []) (h : IsText fp) : ∃ m₁,
    fgets m (lineBufSize - 1) fp = .done (some (m₁, (fgetsLine 254 fp).2)) ∧ LastUnset m₁ ∧
      CStr m₁ 0 (fgetsLine 254 fp).1 ∧ ((fgetsLine 254 fp).1.getLast? = some newline ∨
        (fgetsLine 254 fp).1.length = 254) := by
  have happ := fgetsLine_append 254 fp
  have hlen := fgetsLine_length 254 fp
  have hne : (fgetsLine 254 fp).1 ≠ [] := (fgetsLine_eq_nil (by decide)).not.mpr hfp
  obtain ⟨m₁, hfill, hm₁, heq⟩ := hm.fill (c := (fgetsLine 254 fp).1 ++ [0])
    (by simpa using Nat.lt_succ_of_le hlen)
  refine ⟨m₁, ?_, hm₁, ⟨?_, m.drop ((fgetsLine 254 fp).1.length + 1), ?_⟩, ?_⟩
  · rw [fgets_eq (n := lineBufSize - 1) hne]
    exact congrArg (· >>= fun m => .done (some (m, (fgetsLine 254 fp).2))) hfill
  · intro h0
    refine h.1 ?_
    rw [← happ]
    exact List.mem_append_left _ h0
  · rw [heq]
    simp
  · by_cases hnil : (fgetsLine 254 fp).2 = []
    · left
      rw [hnil, List.append_nil] at happ
      rw [happ]
      exact h.2.resolve_left hfp
    · exact fgetsLine_full hnil

/-- The three ends: no group is taken, none is there, or one is copied. -/
theorem Verdict.cases {k : Option PieceKind} {o : Outcome MemFault (ℤ × Chars)}
    (h : Verdict buf bufLen k o) : (∀ u, k ≠ some (.group u)) ∧ o = .done (-1, buf) ∨
      (∃ e, k = some (.group []) ∧ o = .fault e) ∨
      ∃ u buf', k = some (.group u) ∧ u ≠ [] ∧ o = .done (0, buf') ∧
        CStr buf' 0 ((groupText u).dropLast.take (bufLen - 1)) := by
  match k with
  | none => exact Or.inl ⟨by simp, h⟩
  | some .passed => exact Or.inl ⟨by simp, h⟩
  | some .bad => exact Or.inl ⟨by simp, h⟩
  | some (.group u) =>
    simp only [Verdict] at h
    split at h
    case isTrue hnil =>
      obtain ⟨e, ho⟩ := h
      exact Or.inr (Or.inl ⟨e, by rw [hnil], ho⟩)
    case isFalse hne =>
      obtain ⟨buf', ho, hstr⟩ := h
      exact Or.inr (Or.inr ⟨u, buf', rfl, hne, ho, hstr⟩)

theorem Verdict.ne_running {k : Option PieceKind} {o : Outcome MemFault (ℤ × Chars)}
    (h : Verdict buf bufLen k o) : o ≠ .running := by
  rcases h.cases with ⟨-, rfl⟩ | ⟨e, -, rfl⟩ | ⟨u, buf', -, -, rfl, -⟩ <;> simp

theorem lastUnset_replicate : LastUnset (List.replicate lineBufSize none) :=
  ⟨List.length_replicate, List.getElem?_replicate_of_lt (by decide)⟩

/-- The loop ends at the deciding piece. -/
theorem getSchedulerGroup_verdict {proc : ℤ → Option (List Byte)} {tid : ℤ} (hpos : 1 ≤ bufLen)
    (hbuf : bufLen ≤ buf.length) (hproc : proc tid = some fp) (h : IsText fp)
    (hn : (pieces 254 254 fp).length < n) :
    Verdict buf bufLen (deciding fp) (getSchedulerGroup n proc tid buf bufLen) := by
  rw [getSchedulerGroup, hproc]
  -- a pass that goes on leaves the same piece to decide, and one piece less to read
  refine loop_total (R := fun k s => LastUnset s.1 ∧ IsText s.2 ∧ deciding s.2 = deciding fp ∧
    k = (pieces 254 254 s.2).length) ?_ n _ _ ⟨lastUnset_replicate, h, rfl, rfl⟩ hn
  rintro _ ⟨m, rest⟩ ⟨hm, htext, hdec, rfl⟩
  by_cases hrest : rest = []
  · subst hrest
    refine Or.inr (Or.inl ⟨(-1, buf), ?_, ?_⟩)
    · simp only [groupPass, fgets_eof, Outcome.done_bind, Outcome.pure_eq]
    · rw [← hdec]
      rfl
  · obtain ⟨m₁, hfgets, hm₁, hstr, hfull⟩ := fgets_piece hm hrest htext
    have hpass := groupPass_piece hfgets hm₁ hstr (fgetsLine_length 254 rest) hfull hpos hbuf
    simp only at hdec
    rw [deciding_cons hrest] at hdec
    unfold PassEnds at hpass
    by_cases hkind : pieceKind (fgetsLine 254 rest).1 = .passed
    · rw [if_pos hkind] at hdec hpass
      obtain ⟨m₂, hrun, hm₂⟩ := hpass
      refine Or.inl ⟨_, hrun, _, ?_, hm₂, htext.rest, hdec, rfl⟩
      rw [pieces_eq hrest (by decide)]
      exact Nat.lt_succ_self _
    · rw [if_neg hkind] at hdec hpass
      obtain ⟨r, hrun, hverdict⟩ := hpass
      rw [hdec] at hverdict
      cases r with
      | done b => exact Or.inr (Or.inl ⟨b, hrun, hverdict⟩)
      | fault e => exact Or.inr (Or.inr ⟨e, hrun, hverdict⟩)
      | running => exact absurd rfl hverdict.ne_running

end ThreadManager
