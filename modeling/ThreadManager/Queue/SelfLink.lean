import ThreadManager.Queue.TimedInsert

/-! The timed insertions that change nothing.

    Every timed insertion that returns writes the links of the node. They are what they were before
    only if the node stood where it is put and was linked to itself, which the second insertion of
    one node can bring about and no list that ends contains. -/

namespace ThreadManager
open Schemes

variable {α : Type} {h : Heap (Link α)} {a e : Addr} {v : Ptr}

theorem upd_withNext_self (hv : (h a).map Link.next = some v) : h.upd a (Link.withNext v) = h := by
  refine Heap.upd_eq_self fun n hn => ?_
  rw [hn, Option.map_some, Option.some.injEq] at hv
  rw [← hv]
  rfl

theorem upd_withPrev_self (hv : (h a).map Link.prev = some v) : h.upd a (Link.withPrev v) = h := by
  refine Heap.upd_eq_self fun n hn => ?_
  rw [hn, Option.map_some, Option.some.injEq] at hv
  rw [← hv]
  rfl

namespace Queue

variable [Timed α] {q : Queue α} {xs : List Addr} {when : ℤ}

/-- `e` is met first among the nodes stamped later than `when` (at the head for the time 0), is linked
    to itself, and its `prev` is the node it was met from. -/
structure StuckAt (q : Queue α) (e : Addr) (when : ℤ) (l : List Addr) : Prop where
  path : Seg Link.next q.mem q.head l (some e)
  next : (q.mem e).map Link.next = some (some e)
  prev : (q.mem e).map Link.prev = some l.getLast?
  place : if when = 0 then l = [] else (∀ a ∈ l, stamp q.mem a ≤ when) ∧ when < stamp q.mem e

def Stuck (q : Queue α) (e : Addr) (when : ℤ) : Prop := ∃ l, q.StuckAt e when l

theorem Fwd.not_stuck (hq : q.Fwd xs) : ¬q.Stuck e when := by
  rintro ⟨l, hl⟩
  exact hq.next.not_self (hq.linked_iff.mp hl.path.reach) hl.next

theorem Stuck.not_empty (hstuck : q.Stuck e when) : q.isEmpty = false := by
  obtain ⟨l, hl⟩ := hstuck
  rw [isEmpty, hl.path.start_eq]
  cases l <;> rfl

/-- A call that leaves the queue as it was found the node stuck. -/
theorem stuck_of_same {n : ℕ} (hsame : q.enqueueAtTimeOut n (some e) when = .done q) :
    q.Stuck e when := by
  rcases enqueueAtTimeOut_path hsame with ⟨hat, hhead⟩ | ⟨l, p, y, h0, hs, hle, hlt, -, he, hq⟩
  · obtain ⟨he, hh, ⟨hnone, -⟩ | ⟨b, hb, -, hmem⟩⟩ := enqueueAtHead_done hhead
    · exact absurd (hh.symm.trans hnone) (Option.some_ne_none e)
    · obtain rfl : e = b := Option.some.inj (hh.symm.trans hb)
      refine ⟨[], hh, ?_, ?_, ?_⟩
      · refine (congrArg (fun h => (h e).map Link.next) hmem).trans ?_
        simp only [map_next_upd_withPrev]
        exact map_next_upd_same he
      · refine (congrArg (fun h => (h e).map Link.prev) hmem).trans ?_
        exact map_prev_upd_same (by simpa using he)
      · split
        case isTrue => rfl
        case isFalse h0 =>
          rcases hat with hnone | hzero | ⟨a, ha, hlt⟩
          · exact absurd (hh.symm.trans hnone) (Option.some_ne_none e)
          · exact absurd hzero h0
          · obtain rfl : e = a := Option.some.inj (hh.symm.trans ha)
            exact ⟨by simp, hlt⟩
  · have hmem := congrArg mem hq
    have hp : (q.mem p).isSome := hs.live (by simp)
    have hp' : (q.mem p).map Link.next = some (some e) := by
      refine (congrArg (fun h => (h p).map Link.next) hmem).trans ?_
      simp only [map_next_upd_withPrev]
      exact map_next_upd_same (by simpa using hp)
    obtain ⟨-, hpy⟩ := seg_concat.mp hs
    obtain rfl : e = y := Option.some.inj (Option.some.inj (hp'.symm.trans hpy))
    have hne : e ≠ p := by
      rintro rfl
      exact absurd hlt (not_lt.mpr (hle e (by simp)))
    refine ⟨l ++ [p], hs, ?_, ?_, ?_⟩
    · refine (congrArg (fun h => (h e).map Link.next) hmem).trans ?_
      simp only [map_next_upd_withPrev]
      rw [Heap.upd_of_ne hne]
      exact map_next_upd_same he
    · rw [List.getLast?_concat]
      refine (congrArg (fun h => (h e).map Link.prev) hmem).trans ?_
      exact map_prev_upd_same (by simpa using he)
    · rw [if_neg h0]
      exact ⟨hle, hlt⟩

/-- A node that is stuck is put where it is. -/
theorem Stuck.same (hstuck : q.Stuck e when) :
    Completes (fun n => q.enqueueAtTimeOut n (some e) when) q := by
  obtain ⟨l, hs, hnext, hprev, hplace⟩ := hstuck
  have he : (q.mem e).isSome := by
    obtain ⟨n, hn, -⟩ := Option.map_eq_some_iff.mp hnext
    simp [hn]
  rcases List.eq_nil_or_concat l with rfl | ⟨l, p, rfl⟩
  · have hh : q.head = some e := hs
    have hcase : when = 0 ∨ when < stamp q.mem e := by
      by_cases h0 : when = 0
      · exact Or.inl h0
      · rw [if_neg h0] at hplace
        exact Or.inr hplace.2
    refine ⟨0, ?_⟩
    simp only [enqueueAtTimeOut, timedAtHead_cons hh he, hcase, decide_true, Outcome.done_bind,
      if_true]
    rw [enqueueAtHead_cons hh he he, upd_withNext_self hnext, Heap.upd_upd, ← hh]
    exact congrArg (fun mem => Outcome.done { q with mem }) (upd_withPrev_self hprev)
  · rw [List.concat_eq_append] at hs hprev hplace
    have h0 : when ≠ 0 := by
      rintro rfl
      simp at hplace
    rw [if_neg h0] at hplace
    obtain ⟨-, hp⟩ := seg_concat.mp hs
    rw [List.getLast?_concat] at hprev
    have hrun := enqueueAtTimeOut_middle hs he he h0 hplace.1 hplace.2 (Nat.lt_succ_self _)
    rw [upd_withNext_self hnext, upd_withNext_self hp, upd_withPrev_self hprev] at hrun
    exact ⟨_, hrun⟩

end Queue

end ThreadManager
