import Mathlib.Data.List.TakeWhile
import ThreadManager.Thread.SchedulerGroup

/-! Which files `getSchedulerGroup` reads right.

    The file is a list of lines `id:subsys:/path`, and the function is to copy the path of the first
    line for cpu, cut to the buffer. It copies the group of the first piece that decides. A line of
    more than 254 bytes is several pieces, and each of them may decide; a colon in the path ends the
    group, and the byte before it is dropped like a newline. So it is right where the lines before the
    cpu line fit, and the path goes on without a colon for as long as the buffer takes it. -/

namespace ThreadManager
open Schemes

/-- A line of `/proc/<pid>/cgroup`. -/
structure CgroupLine where
  id : List Byte
  subsys : List Byte
  path : List Byte
  id_clean : colon ∉ id ∧ newline ∉ id ∧ 0 ∉ id
  subsys_clean : colon ∉ subsys ∧ newline ∉ subsys ∧ 0 ∉ subsys
  path_clean : newline ∉ path ∧ 0 ∉ path

/-- The line without its newline. -/
def CgroupLine.text (l : CgroupLine) : List Byte :=
  l.id ++ colon :: (l.subsys ++ colon :: slash :: l.path)

/-- The content of the file. -/
def cgroupFile (lines : List CgroupLine) : List Byte :=
  lines.flatMap fun l => l.text ++ [newline]

/-- The first line for cpu. -/
def cpuLine (lines : List CgroupLine) : Option CgroupLine := lines.find? fun l => l.subsys = cpu

/-- The call returns 0 with the path of the cpu line in the buffer, cut to it, and -1 if there is no
    such line. -/
def ReportsGroup (lines : List CgroupLine) (bufLen : ℕ) (f : ℕ → Outcome MemFault (ℤ × Chars)) :
    Prop :=
  match cpuLine lines with
  | some l => ∃ buf, Completes f (0, buf) ∧ CStr buf 0 (l.path.take (bufLen - 1))
  | none => ∃ buf, Completes f (-1, buf)

/-- The line fits `lineBuf`, with its newline. -/
def CgroupLine.Fits (l : CgroupLine) : Prop := l.text.length < 254

instance (l : CgroupLine) : Decidable l.Fits := inferInstanceAs (Decidable (_ < _))

/-- The lines before the first one for cpu. -/
def linesBefore (lines : List CgroupLine) : List CgroupLine := lines.takeWhile fun l => l.subsys ≠ cpu

/-- How many bytes of the path of a cpu line are copied at most: of the path and its newline, those
    before the first colon that stand in the first 254 bytes of the line, but for the last of them. -/
def CgroupLine.shown (l : CgroupLine) : ℕ :=
  min ((l.path ++ [newline]).idxOf colon) (248 - l.id.length) - 1

/-- Without a cpu line, no line has a colon behind its first 254 bytes. With one, all lines before it
    fit, its path begins in its first 254 bytes, and of the path all is copied, or as much as goes into
    the buffer. -/
def Readable (lines : List CgroupLine) (bufLen : ℕ) : Prop :=
  match cpuLine lines with
  | none => ∀ l ∈ lines, colon ∉ l.text.drop 254
  | some l => (∀ x ∈ linesBefore lines, x.Fits) ∧ l.id.length ≤ 248 ∧
    (bufLen - 1 ≤ l.shown ∨ l.path.length ≤ l.shown)

/-- No line before the cpu line has a colon behind its first 254 bytes, and the path of the cpu line
    begins in its first 254 bytes. -/
structure Plain (lines : List CgroupLine) : Prop where
  before : ∀ l ∈ linesBefore lines, colon ∉ l.text.drop 254
  cpuLine : ∀ l, cpuLine lines = some l → l.id.length ≤ 248

variable {lines : List CgroupLine} {l : CgroupLine} {buf : Chars} {bufLen : ℕ} {tid : ℤ}
  {proc : ℤ → Option (List Byte)}

theorem CgroupLine.newline_notMem (l : CgroupLine) : newline ∉ l.text := by
  simp only [text, List.mem_append, List.mem_cons, not_or]
  exact ⟨l.id_clean.2.1, by decide, l.subsys_clean.2.1, by decide, by decide, l.path_clean.1⟩

theorem CgroupLine.nul_notMem (l : CgroupLine) : 0 ∉ l.text := by
  simp only [text, List.mem_append, List.mem_cons, not_or]
  exact ⟨l.id_clean.2.2, by decide, l.subsys_clean.2.2, by decide, by decide, l.path_clean.2⟩

theorem isText_cgroupFile (lines : List CgroupLine) : IsText (cgroupFile lines) := by
  constructor
  · intro h
    obtain ⟨l, -, h⟩ := List.mem_flatMap.mp h
    rcases List.mem_append.mp h with h | h
    · exact l.nul_notMem h
    · exact absurd (List.mem_singleton.mp h) (by decide)
  · induction lines with
    | nil => exact Or.inl rfl
    | cons l lines ih =>
      right
      rw [cgroupFile, List.flatMap_cons]
      rcases ih with hnil | hlast
      · rw [cgroupFile] at hnil
        rw [hnil, List.append_nil, List.getLast?_concat]
      · rw [cgroupFile] at hlast
        rw [List.getLast?_append, hlast]
        rfl

theorem getSchedulerGroup_stable :
    Stable (fun n => getSchedulerGroup n proc tid buf bufLen) := by
  unfold getSchedulerGroup
  cases proc tid with
  | none => exact Stable.const _
  | some fp => exact loop_stable _ _

/-- The function returns -1 exactly if it takes no group. -/
theorem Verdict.returns_neg {k : Option PieceKind} {o : Outcome MemFault (ℤ × Chars)}
    (h : Verdict buf bufLen k o) :
    (∃ buf', o = .done (-1, buf')) ↔ ∀ u, k ≠ some (.group u) := by
  rcases h.cases with ⟨hno, rfl⟩ | ⟨e, rfl, rfl⟩ | ⟨u, buf', rfl, -, rfl, -⟩
  · exact iff_of_true ⟨buf, rfl⟩ hno
  · simp
  · simp

/-- It returns 0 with the string `s` in the buffer exactly if it takes a group that is cut to `s`. -/
theorem Verdict.returns_zero {k : Option PieceKind} {o : Outcome MemFault (ℤ × Chars)}
    {s : List Byte} (h : Verdict buf bufLen k o) :
    (∃ buf', o = .done (0, buf') ∧ CStr buf' 0 s) ↔
      ∃ u, k = some (.group u) ∧ u ≠ [] ∧ (groupText u).dropLast.take (bufLen - 1) = s := by
  rcases h.cases with ⟨hno, rfl⟩ | ⟨e, rfl, rfl⟩ | ⟨u, buf₂, rfl, hne, rfl, hstr⟩
  · refine iff_of_false ?_ fun ⟨u, hu, _⟩ => hno u hu
    rintro ⟨buf', hdone, -⟩
    cases hdone
  · simp
  · constructor
    · rintro ⟨buf', hdone, hs⟩
      obtain rfl := (Prod.mk.inj (Outcome.done.inj hdone)).2
      exact ⟨u, rfl, hne, hstr.unique hs⟩
    · rintro ⟨u', hu', -, rfl⟩
      cases hu'
      exact ⟨buf₂, rfl, hstr⟩

/-! ### The deciding piece of a file -/

theorem cgroupFile_cons (l : CgroupLine) (lines : List CgroupLine) :
    cgroupFile (l :: lines) = l.text ++ newline :: cgroupFile lines := by
  simp [cgroupFile]

section Line

variable {s : List Byte}

/-- The first piece of a file decides, or the loop goes on with the rest. -/
theorem deciding_line (l : CgroupLine) (s : List Byte) : deciding (l.text ++ newline :: s) =
    if pieceKind ((l.text ++ [newline]).take 254) = .passed then
      deciding ((l.text ++ [newline]).drop 254 ++ s)
    else some (pieceKind ((l.text ++ [newline]).take 254)) := by
  rw [deciding_cons (by simp), fgetsLine_take l.newline_notMem]

theorem CgroupLine.text_newline (l : CgroupLine) : l.text ++ [newline] =
    l.id ++ colon :: (l.subsys ++ colon :: slash :: (l.path ++ [newline])) := by
  simp [text]

/-- A line for another subsystem that fits is passed. -/
theorem deciding_passed (hl : l.subsys ≠ cpu) (hfits : l.Fits) :
    deciding (l.text ++ newline :: s) = deciding s := by
  have hlen : (l.text ++ [newline]).length ≤ 254 := by
    simpa using Nat.succ_le_of_lt hfits
  rw [deciding_line, List.take_of_length_le hlen, List.drop_of_length_le hlen, l.text_newline,
    pieceKind_three l.id_clean.1 l.subsys_clean.1, if_pos hl, if_pos rfl, List.nil_append]

/-- One that does not fit ends the loop, unless there is a colon in its other pieces. -/
theorem deciding_bad (hl : l.subsys ≠ cpu) (hlong : ¬l.Fits) (hcolon : colon ∉ l.text.drop 254) :
    deciding (l.text ++ newline :: s) = some .bad := by
  unfold CgroupLine.Fits at hlong
  have hfirst := pieceKind_take (u := slash :: (l.path ++ [newline])) l.id_clean.1 l.subsys_clean.1
    hl 254
  rw [← l.text_newline] at hfirst
  rw [deciding_line]
  rcases hfirst with hpassed | hbad
  · have hrest : newline ∉ l.text.drop 254 := fun h => l.newline_notMem (List.mem_of_mem_drop h)
    have hpiece : colon ∉ (l.text.drop 254 ++ [newline]).take 254 := by
      intro h
      rcases List.mem_append.mp (List.mem_of_mem_take h) with h | h
      · exact hcolon h
      · exact absurd (List.mem_singleton.mp h) (by decide)
    rw [if_pos hpassed, List.drop_append_of_le_length (by omega), List.append_assoc,
      List.singleton_append, deciding_cons (by simp), fgetsLine_take hrest, pieceKind_bad hpiece]
    exact if_neg (by simp)
  · rw [hbad]
    exact if_neg (by simp)

/-- The group of a cpu line, as far as it stands in the first piece. -/
theorem deciding_group (hl : l.subsys = cpu) (hid : l.id.length ≤ 248) :
    deciding (l.text ++ newline :: s) =
      some (.group (slash :: (l.path ++ [newline]).take (248 - l.id.length))) := by
  have hpiece : (l.text ++ [newline]).take 254 = l.id ++ colon ::
      (l.subsys ++ colon :: slash :: (l.path ++ [newline]).take (248 - l.id.length)) := by
    have hlen : (l.id ++ colon :: (l.subsys ++ [colon, slash])).length = l.id.length + 6 := by
      rw [hl]
      simp [cpu, ascii]
    have hsplit : l.text ++ [newline] =
        (l.id ++ colon :: (l.subsys ++ [colon, slash])) ++ (l.path ++ [newline]) := by
      simp [CgroupLine.text]
    rw [hsplit, List.take_append, List.take_of_length_le (by omega), hlen,
      show 254 - (l.id.length + 6) = 248 - l.id.length by omega]
    simp
  rw [deciding_line, hpiece, pieceKind_three l.id_clean.1 l.subsys_clean.1, if_neg (not_not.mpr hl)]
  exact if_neg (by simp)

theorem idxOf_notMem {path : List Byte} (h : colon ∉ path) :
    (path ++ [newline]).idxOf colon = path.length + 1 := by
  rw [List.idxOf_eq_length]
  · simp
  · simpa [h] using (show colon ≠ newline by decide)

/-- What is copied of it. -/
theorem groupText_shown (l : CgroupLine) :
    (groupText (slash :: (l.path ++ [newline]).take (248 - l.id.length))).dropLast =
      l.path.take l.shown := by
  have hidx : (l.path ++ [newline]).idxOf colon ≤ l.path.length + 1 := by
    have hle := List.idxOf_le_length (a := colon) (l := l.path ++ [newline])
    simpa using hle
  have hpath : (l.path ++ [newline]).take l.shown = l.path.take l.shown := by
    refine List.take_append_of_le_length ?_
    unfold CgroupLine.shown
    omega
  rw [groupText, if_neg (show slash ≠ colon by decide), sep_take, List.dropLast_eq_take,
    List.length_take, List.length_append, List.length_singleton, List.take_take, ← hpath]
  unfold CgroupLine.shown
  congr 1
  omega

/-- Where the cpu line fits too, it has no colon in its path, or the buffer is not longer than what comes
    before the first one, and not longer than one byte if nothing does. -/
theorem shown_of_fits (hfits : l.Fits) (hl : l.subsys = cpu) (hpos : 1 ≤ bufLen) :
    bufLen - 1 ≤ l.shown ∨ l.path.length ≤ l.shown ↔
      colon ∉ l.path ∨ bufLen ≤ max 1 (l.path.idxOf colon) := by
  have hroom : l.path.length + 1 ≤ 248 - l.id.length := by
    unfold CgroupLine.Fits at hfits
    simp only [CgroupLine.text, hl, List.length_append, List.length_cons, cpu, ascii,
      List.length_map] at hfits
    simp at hfits
    omega
  unfold CgroupLine.shown
  by_cases hcolon : colon ∈ l.path
  · have hlt := List.idxOf_lt_length_of_mem hcolon
    rw [List.idxOf_append_of_mem hcolon]
    simp only [hcolon, not_true_eq_false, false_or]
    omega
  · rw [idxOf_notMem hcolon]
    simp only [hcolon, not_false_eq_true, true_or, iff_true]
    omega

end Line

theorem cpuLine_cons (l : CgroupLine) (lines : List CgroupLine) :
    cpuLine (l :: lines) = if l.subsys = cpu then some l else cpuLine lines := by
  rw [cpuLine, List.find?_cons]
  by_cases hl : l.subsys = cpu
  · simp [hl]
  · simp [hl, cpuLine]

theorem linesBefore_cons (l : CgroupLine) (lines : List CgroupLine) :
    linesBefore (l :: lines) = if l.subsys = cpu then [] else l :: linesBefore lines := by
  rw [linesBefore, List.takeWhile_cons]
  by_cases hl : l.subsys = cpu
  · simp [hl]
  · simp [hl, linesBefore]

theorem linesBefore_eq (h : cpuLine lines = none) : linesBefore lines = lines := by
  rw [linesBefore, List.takeWhile_eq_self_iff]
  simpa [cpuLine] using h

/-- If all lines before the cpu line fit, it is the one that decides. -/
theorem deciding_cpuLine (hbefore : ∀ x ∈ linesBefore lines, x.Fits) (hl : cpuLine lines = some l)
    (hid : l.id.length ≤ 248) : deciding (cgroupFile lines) =
      some (.group (slash :: (l.path ++ [newline]).take (248 - l.id.length))) := by
  induction lines with
  | nil => cases hl
  | cons x lines ih =>
    rw [linesBefore_cons] at hbefore
    rw [cpuLine_cons] at hl
    rw [cgroupFile_cons]
    by_cases hx : x.subsys = cpu
    · rw [if_pos hx, Option.some.injEq] at hl
      subst hl
      exact deciding_group hx hid
    · rw [if_neg hx] at hbefore hl
      obtain ⟨hfits, hbefore⟩ := List.forall_mem_cons.mp hbefore
      rw [deciding_passed hx hfits]
      exact ih hbefore hl

/-- The first line that does not fit decides if it comes before the cpu line; without either no piece
    does. -/
theorem deciding_before (hcolon : ∀ x ∈ linesBefore lines, colon ∉ x.text.drop 254)
    (hlong : cpuLine lines = none ∨ ¬∀ x ∈ linesBefore lines, x.Fits) (u : List Byte) :
    deciding (cgroupFile lines) ≠ some (.group u) := by
  induction lines with
  | nil => simp [cgroupFile, deciding, pieces]
  | cons x lines ih =>
    rw [linesBefore_cons] at hcolon hlong
    rw [cpuLine_cons] at hlong
    rw [cgroupFile_cons]
    by_cases hx : x.subsys = cpu
    · simp [hx] at hlong
    · rw [if_neg hx] at hcolon hlong
      rw [if_neg hx] at hlong
      obtain ⟨hfirst, hcolon⟩ := List.forall_mem_cons.mp hcolon
      by_cases hfits : x.Fits
      · rw [deciding_passed hx hfits]
        refine ih hcolon (hlong.imp_right fun hno hall => hno ?_)
        exact List.forall_mem_cons.mpr ⟨hfits, hall⟩
      · rw [deciding_bad hx hfits hfirst]
        simp

/-! ### Which files are read right -/

/-- A file and a buffer as above are read right. For files without late colons and with a path in the
    first 254 bytes of the cpu line, no others are. -/
theorem scheduler_group_when (hpos : 1 ≤ bufLen) (hbuf : bufLen ≤ buf.length)
    (hproc : proc tid = some (cgroupFile lines)) :
    (Readable lines bufLen →
      ReportsGroup lines bufLen fun n => getSchedulerGroup n proc tid buf bufLen) ∧
    (Plain lines → (ReportsGroup lines bufLen fun n => getSchedulerGroup n proc tid buf bufLen) →
      Readable lines bufLen) := by
  have hverdict := getSchedulerGroup_verdict hpos hbuf hproc (isText_cgroupFile lines)
    (Nat.lt_succ_self _)
  have hends : ∀ r, Completes (fun n => getSchedulerGroup n proc tid buf bufLen) r ↔ _ := fun r =>
    getSchedulerGroup_stable.completes_iff (a := r) hverdict.ne_running
  unfold ReportsGroup Readable
  simp only [hends]
  cases hcpu : cpuLine lines with
  | none =>
    simp only [hverdict.returns_neg]
    refine ⟨fun hcolon => ?_, fun hplain _ => ?_⟩
    · exact deciding_before (by rwa [linesBefore_eq hcpu]) (Or.inl hcpu)
    · rw [← linesBefore_eq hcpu]
      exact hplain.before
  | some l =>
    simp only [hverdict.returns_zero]
    constructor
    · rintro ⟨hbefore, hid, hshown⟩
      refine ⟨_, deciding_cpuLine hbefore hcpu hid, by simp, ?_⟩
      rw [groupText_shown]
      exact take_take_eq_iff.mpr hshown
    · rintro hplain ⟨u, hu, -, htext⟩
      have hid := hplain.cpuLine l hcpu
      have hbefore : ∀ x ∈ linesBefore lines, x.Fits := by
        by_contra hno
        exact deciding_before hplain.before (Or.inr hno) u hu
      rw [deciding_cpuLine hbefore hcpu hid] at hu
      cases hu
      rw [groupText_shown] at htext
      exact ⟨hbefore, hid, take_take_eq_iff.mp htext⟩

/-- `2:cpu:/bg`. -/
def bgLine : CgroupLine := ⟨ascii ['2'], cpu, ascii ['b', 'g'], by decide, by decide, by decide⟩

/-- `1:cpux:/`. -/
def cpuxLine : CgroupLine := ⟨ascii ['1'], cpu ++ ascii ['x'], [], by decide, by decide, by decide⟩

/-- The path of the second line, cut to one byte. -/
theorem scheduler_group_bg : ReportsGroup [cpuxLine, bgLine] 2 fun n =>
    getSchedulerGroup n (fun _ => some (cgroupFile [cpuxLine, bgLine])) 7 [none, none] 2 := by
  refine (scheduler_group_when (by decide) (by decide) rfl).1 ?_
  exact ⟨by decide, by decide, Or.inl (by decide)⟩

/-- `2:cpu:/a:b`. -/
def colonLine : CgroupLine :=
  ⟨ascii ['2'], cpu, ascii ['a', ':', 'b'], by decide, by decide, by decide⟩

/-- A line for another subsystem, with a path of 300 bytes. -/
def longLine : CgroupLine where
  id := ascii ['1']
  subsys := ascii ['m']
  path := List.replicate 300 slash
  id_clean := by decide
  subsys_clean := by decide
  path_clean := by
    simp only [List.mem_replicate, not_and]
    exact ⟨fun _ => by decide, fun _ => by decide⟩

set_option maxRecDepth 4000 in
/-- Of the path `a:b` nothing is reported, and behind a line that does not fit the line for cpu is not
    found. -/
theorem scheduler_group_wrong :
    (getSchedulerGroup 1 (fun _ => some (cgroupFile [colonLine])) 7 [none, none, none, none] 4 =
        .done (0, [some 0, some 0, none, none]) ∧
      ¬ReportsGroup [colonLine] 4 fun n =>
        getSchedulerGroup n (fun _ => some (cgroupFile [colonLine])) 7 [none, none, none, none] 4) ∧
    getSchedulerGroup 2 (fun _ => some (cgroupFile [longLine, bgLine])) 7 [none, none] 2 =
        .done (-1, [none, none]) ∧
      ¬ReportsGroup [longLine, bgLine] 2 fun n =>
        getSchedulerGroup n (fun _ => some (cgroupFile [longLine, bgLine])) 7 [none, none] 2 := by
  have hcolon : getSchedulerGroup 1 (fun _ => some (cgroupFile [colonLine])) 7
      [none, none, none, none] 4 = .done (0, [some 0, some 0, none, none]) := by decide
  have hlong : getSchedulerGroup 2 (fun _ => some (cgroupFile [longLine, bgLine])) 7
      [none, none] 2 = .done (-1, [none, none]) := by decide +kernel
  refine ⟨⟨hcolon, ?_⟩, hlong, ?_⟩
  · rintro ⟨buf, hrun, hstr⟩
    have hres := getSchedulerGroup_stable.completes_unique hrun ⟨1, hcolon⟩
    obtain rfl := (Prod.mk.inj hres).2
    have hnil : CStr [some 0, some 0, none, none] 0 [] := ⟨by simp, _, rfl⟩
    exact absurd (hnil.unique hstr) (by decide)
  · rintro ⟨buf, hrun, -⟩
    have hres := getSchedulerGroup_stable.completes_unique hrun ⟨2, hlong⟩
    exact absurd (Prod.mk.inj hres).1 (by decide)

end ThreadManager
