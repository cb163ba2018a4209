import ThreadManager.Schemes.Heap

/-! List segments: the nodes visited by following one link field.

    `Seg nx h p xs q` says that from `p`, following the field `nx` through the memory `h`, the nodes
    `xs` are visited in order and `q` is met next; `q = none` is a whole list. The field is a
    parameter, so the two directions of a doubly linked list are two instances of one notion, the
    second one on the reversed list. -/

namespace Schemes

variable {T : Type*} {nx : T → Ptr} {h h' : Heap T} {p q : Ptr} {xs ys : List Addr} {a b : Addr}

/-- The nodes `xs` are visited from `p` along `nx`, and `q` comes next. -/
def Seg (nx : T → Ptr) (h : Heap T) : Ptr → List Addr → Ptr → Prop
  | p, [], q => p = q
  | p, a :: as, q => p = some a ∧ ∃ r, (h a).map nx = some r ∧ Seg nx h r as q

@[simp] theorem seg_nil : Seg nx h p [] q ↔ p = q := Iff.rfl

@[simp] theorem seg_cons :
    Seg nx h p (a :: xs) q ↔ p = some a ∧ ∃ r, (h a).map nx = some r ∧ Seg nx h r xs q := Iff.rfl

theorem seg_append : Seg nx h p (xs ++ ys) q ↔ ∃ m, Seg nx h p xs m ∧ Seg nx h m ys q := by
  induction xs generalizing p with
  | nil => simp
  | cons a as ih =>
    simp only [List.cons_append, seg_cons, ih]
    constructor
    · rintro ⟨hp, r, hr, m, h1, h2⟩
      exact ⟨m, ⟨hp, r, hr, h1⟩, h2⟩
    · rintro ⟨m, ⟨hp, r, hr, h1⟩, h2⟩
      exact ⟨hp, r, hr, m, h1, h2⟩

theorem seg_concat :
    Seg nx h p (xs ++ [a]) q ↔ Seg nx h p xs (some a) ∧ (h a).map nx = some q := by
  rw [seg_append]
  constructor
  · rintro ⟨m, h1, rfl, r, hr, rfl⟩
    exact ⟨h1, hr⟩
  · rintro ⟨h1, hr⟩
    exact ⟨some a, h1, rfl, q, hr, rfl⟩

namespace Seg

/-- A segment only depends on the link fields of the nodes it visits. -/
theorem congr (hs : Seg nx h p xs q) (hc : ∀ a ∈ xs, (h' a).map nx = (h a).map nx) :
    Seg nx h' p xs q := by
  induction xs generalizing p with
  | nil => exact hs
  | cons a as ih =>
    obtain ⟨hp, r, hr, hs⟩ := hs
    refine ⟨hp, r, ?_, ih hs fun b hb => hc b (List.mem_cons_of_mem _ hb)⟩
    rw [hc a List.mem_cons_self, hr]

theorem live (hs : Seg nx h p xs q) (ha : a ∈ xs) : (h a).isSome := by
  induction xs generalizing p with
  | nil => simp at ha
  | cons b bs ih =>
    obtain ⟨_, r, hr, hs⟩ := hs
    rcases List.mem_cons.mp ha with rfl | ha
    · obtain ⟨n, hn, -⟩ := Option.map_eq_some_iff.mp hr
      simp [hn]
    · exact ih hs ha

/-- The first node of a segment, or what comes after an empty one. -/
theorem start_eq (hs : Seg nx h p xs q) : p = xs.head?.or q := by
  cases xs with
  | nil => simpa using hs
  | cons a as => simpa using hs.1

theorem head_eq (hs : Seg nx h p xs none) : p = xs.head? := by
  rw [hs.start_eq, Option.or_none]

theorem eq_nil_iff (hs : Seg nx h p xs none) : p = none ↔ xs = [] := by
  rw [hs.head_eq, List.head?_eq_none_iff]

/-- Following a link field from one place visits one list. -/
theorem det (hs : Seg nx h p xs none) (hs' : Seg nx h p ys none) : xs = ys := by
  induction xs generalizing p ys with
  | nil => exact (hs'.eq_nil_iff.mp hs).symm
  | cons a as ih =>
    cases ys with
    | nil => exact absurd (hs.1.symm.trans hs') (by simp)
    | cons b bs =>
      obtain ⟨hp, r, hr, hs⟩ := hs
      obtain ⟨hp', r', hr', hs'⟩ := hs'
      have hab : a = b := Option.some.inj (hp.symm.trans hp')
      subst hab
      have hrr : r = r' := Option.some.inj (hr.symm.trans hr')
      subst hrr
      rw [ih hs hs']

/-- A list that ends visits no node twice: from a node met twice the same rest would follow. -/
theorem nodup (hs : Seg nx h p xs none) : xs.Nodup := by
  induction xs generalizing p with
  | nil => exact List.nodup_nil
  | cons a as ih =>
    obtain ⟨hp, r, hr, hs'⟩ := hs
    refine List.nodup_cons.mpr ⟨?_, ih hs'⟩
    intro hmem
    obtain ⟨l, t, rfl⟩ := List.append_of_mem hmem
    obtain ⟨m, -, hat⟩ := seg_append.mp hs'
    have hloop : Seg nx h (some a) (a :: (l ++ a :: t)) none := ⟨rfl, r, hr, hs'⟩
    have hlen := congrArg List.length (hloop.det (hat.1 ▸ hat))
    simp only [List.length_cons, List.length_append] at hlen
    omega

/-- No node of a list that ends is linked to itself. -/
theorem not_self (hs : Seg nx h p xs none) (ha : a ∈ xs) : (h a).map nx ≠ some (some a) := by
  intro hself
  obtain ⟨l, m, rfl⟩ := List.append_of_mem ha
  obtain ⟨_, -, rfl, r, hr, hm⟩ := seg_append.mp hs
  obtain rfl : some a = r := Option.some.inj (hself.symm.trans hr)
  have hloop : Seg nx h (some a) (a :: m) none := ⟨rfl, some a, hself, hm⟩
  have hlen := congrArg List.length (hloop.det hm)
  simp at hlen

/-- A write outside the visited nodes keeps the segment. -/
theorem upd_out {f : T → T} (hs : Seg nx h p xs q) (ha : a ∉ xs) : Seg nx (h.upd a f) p xs q :=
  hs.congr fun b hb => by rw [Heap.upd_of_ne (ne_of_mem_of_not_mem hb ha)]

/-- A write to another field keeps the segment. -/
theorem upd_other {f : T → T} (hs : Seg nx h p xs q) (hf : ∀ x, nx (f x) = nx x) :
    Seg nx (h.upd a f) p xs q :=
  hs.congr fun _ _ => Heap.map_upd_of_eq hf

/-- Writing the link of the last node redirects where the segment arrives. -/
theorem redirect {f : T → T} {r : Ptr} (hs : Seg nx h p (xs ++ [a]) q) (ha : a ∉ xs)
    (hf : ∀ x, nx (f x) = r) : Seg nx (h.upd a f) p (xs ++ [a]) r := by
  have hlive := hs.live (a := a) (by simp)
  rw [seg_concat] at hs ⊢
  exact ⟨hs.1.upd_out ha, Heap.map_upd_same hf hlive⟩

/-- Writing the link of the node before `a` past `a` takes `a` out. -/
theorem bypass {f : T → T} {v : Ptr} {zs : List Addr}
    (hs : Seg nx h p ((xs ++ [b]) ++ a :: zs) q) (hnd : ((xs ++ [b]) ++ a :: zs).Nodup)
    (hv : (h a).map nx = some v) (hf : ∀ x, nx (f x) = v) :
    Seg nx (h.upd b f) p ((xs ++ [b]) ++ zs) q := by
  obtain ⟨m, hl, -, r, hr, hz⟩ := seg_append.mp hs
  have hrv : r = v := Option.some.inj (hr.symm.trans hv)
  subst hrv
  have hnd' := List.nodup_append.mp hnd
  have hbx : b ∉ xs := fun hmem =>
    (List.nodup_append.mp hnd'.1).2.2 b hmem b (List.mem_singleton_self b) rfl
  have hbz : b ∉ zs := fun hmem =>
    hnd'.2.2 b (by simp) b (List.mem_cons_of_mem _ hmem) rfl
  exact seg_append.mpr ⟨r, hl.redirect hbx hf, hz.upd_out hbz⟩

/-- Writing the links of `a` and of the node before it puts `a` in. -/
theorem splice {f g : T → T} {v : Ptr} {zs : List Addr}
    (hs : Seg nx h p ((xs ++ [b]) ++ zs) q) (hnd : ((xs ++ [b]) ++ zs).Nodup)
    (ha : a ∉ (xs ++ [b]) ++ zs) (hlive : (h a).isSome) (hv : zs.head?.or q = v)
    (hf : ∀ x, nx (f x) = v) (hg : ∀ x, nx (g x) = some a) :
    Seg nx ((h.upd a f).upd b g) p ((xs ++ [b]) ++ a :: zs) q := by
  obtain ⟨m, hl, hz⟩ := seg_append.mp hs
  have hmv : m = v := hz.start_eq.trans hv
  subst hmv
  have hnd' := List.nodup_append.mp hnd
  have hbx : b ∉ xs := fun hmem =>
    (List.nodup_append.mp hnd'.1).2.2 b hmem b (List.mem_singleton_self b) rfl
  have hbz : b ∉ zs := fun hmem => hnd'.2.2 b (by simp) b hmem rfl
  have hal : a ∉ xs ++ [b] := fun hmem => ha (List.mem_append_left _ hmem)
  have haz : a ∉ zs := fun hmem => ha (List.mem_append_right _ hmem)
  have hab : a ≠ b := fun h => hal (by simp [h])
  refine seg_append.mpr ⟨some a, (hl.upd_out hal).redirect hbx hg, rfl, m, ?_, ?_⟩
  · rw [Heap.upd_of_ne hab, Heap.map_upd_same hf hlive]
  · exact (hz.upd_out haz).upd_out hbz

end Seg

/-! ### Reachability along a link field -/

/-- `a` is met when `nx` is followed from `p`, whether or not that ever ends. -/
inductive Reach (nx : T → Ptr) (h : Heap T) : Ptr → Addr → Prop
  | here {a : Addr} : Reach nx h (some a) a
  | next {a b : Addr} {n : T} : h a = some n → Reach nx h (nx n) b → Reach nx h (some a) b

theorem Reach.not_none : ¬Reach nx h none b := by rintro ⟨⟩

theorem Seg.reach (hs : Seg nx h p xs (some b)) : Reach nx h p b := by
  induction xs generalizing p with
  | nil =>
    rw [seg_nil] at hs
    exact hs ▸ .here
  | cons a as ih =>
    obtain ⟨rfl, r, hr, hs⟩ := hs
    obtain ⟨n, hn, rfl⟩ := Option.map_eq_some_iff.mp hr
    exact .next hn (ih hs)

theorem Reach.snoc {n : T} (hr : Reach nx h p a) (hn : h a = some n) (hb : nx n = some b) :
    Reach nx h p b := by
  induction hr with
  | here => exact .next hn (hb ▸ .here)
  | next hm _ ih => exact .next hm (ih hn)

/-- If a node with `P` is met, there is a first one. -/
theorem Reach.first {P : Addr → Prop} (hr : Reach nx h p b) (hb : P b) :
    ∃ xs y, Seg nx h p xs (some y) ∧ (∀ x ∈ xs, ¬P x) ∧ P y := by
  induction hr with
  | here => exact ⟨[], _, rfl, by simp, hb⟩
  | @next a c n hn hr ih =>
    rcases em (P a) with ha | ha
    · exact ⟨[], a, rfl, by simp, ha⟩
    · obtain ⟨xs, y, hs, hxs, hy⟩ := ih hb
      exact ⟨a :: xs, y, ⟨rfl, _, by rw [hn]; rfl, hs⟩, List.forall_mem_cons.mpr ⟨ha, hxs⟩, hy⟩

/-- Along a list that ends, exactly its members are met. -/
theorem reach_iff_mem (hs : Seg nx h p xs none) : Reach nx h p b ↔ b ∈ xs := by
  induction xs generalizing p with
  | nil =>
    rw [seg_nil] at hs
    subst hs
    constructor
    · intro hr; cases hr
    · simp
  | cons a as ih =>
    obtain ⟨rfl, r, hr, hs⟩ := hs
    obtain ⟨n, hn, rfl⟩ := Option.map_eq_some_iff.mp hr
    rw [List.mem_cons, ← ih hs]
    constructor
    · intro hreach
      cases hreach with
      | here => exact Or.inl rfl
      | next hn' hreach =>
        rw [hn] at hn'
        cases hn'
        exact Or.inr hreach
    · rintro (rfl | hreach)
      · exact .here
      · exact .next hn hreach

end Schemes
