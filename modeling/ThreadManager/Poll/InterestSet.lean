import ThreadManager.Schemes.Transition

/-! The descriptors a `Poll` waits for: `Poll::addFd` and `Poll::removeFd` over `epoll_ctl`.

    Beside the interest set of the kernel runs the map of what was asked for last: an `addFd` with
    acceptable arguments enters its mask, a `removeFd` takes the entry out. Poll.h promises that a
    descriptor which is added again is replaced. The code never sets `requestIndex`, so it always asks
    for `EPOLL_CTL_ADD`, and the two maps agree until a descriptor is added again. -/

namespace ThreadManager
open Schemes

/-- `ALOOPER_EVENT_INPUT` and `ALOOPER_EVENT_OUTPUT`. -/
def alooperEventInput : BitVec 32 := 1#32 <<< 0

def alooperEventOutput : BitVec 32 := 1#32 <<< 1

/-- `EPOLLIN` and `EPOLLOUT`. -/
def epollIn : BitVec 32 := 0x001#32

def epollOut : BitVec 32 := 0x004#32

/-- The interest set of an epoll instance: the events of each registered descriptor. -/
abbrev Interest := ℕ → Option (BitVec 32)

/-- The operations of `epoll_ctl`. -/
inductive EpollOp where
  | add (events : BitVec 32)
  | mod (events : BitVec 32)
  | del
  deriving DecidableEq, Repr

/-- `epoll_ctl` on an open descriptor; `none` is -1, with EEXIST for `add` and ENOENT otherwise. -/
def epollCtl (set : Interest) (fd : ℕ) : EpollOp → Option Interest
  | .add events => if (set fd).isSome then none else some (Function.update set fd (some events))
  | .mod events => if (set fd).isSome then some (Function.update set fd (some events)) else none
  | .del => if (set fd).isSome then some (Function.update set fd none) else none

/-- The epoll events for the `ALOOPER_EVENT` bits of a call. -/
def epollEvents (events : BitVec 32) : BitVec 32 :=
  (if events &&& alooperEventInput ≠ 0 then epollIn else 0) |||
    (if events &&& alooperEventOutput ≠ 0 then epollOut else 0)

/-- What `addFd` and `removeFd` use of a `Poll`, and the interest set of its `mEpollFd`. -/
structure PollFds where
  mAllowNonCallbacks : Bool
  mWakeReadPipeFd : ℕ
  interest : Interest

namespace PollFds

/-- The constructor registers the read end of the wake pipe. -/
def new (mAllowNonCallbacks : Bool) (mWakeReadPipeFd : ℕ) : PollFds :=
  ⟨mAllowNonCallbacks, mWakeReadPipeFd,
    Function.update (fun _ => none) mWakeReadPipeFd (some epollIn)⟩

/-- `Poll::addFd`; of the callback only matters whether it is NULL. -/
def addFd (s : PollFds) (fd : ℕ) (ident : ℤ) (events : BitVec 32) (callback : Bool) :
    ℤ × PollFds :=
  if callback = false ∧ s.mAllowNonCallbacks = false then (-1, s)
  else if callback = false ∧ ident < 0 then (-1, s)
  else
    let requestIndex : ℤ := -1
    if requestIndex < 0 then
      match epollCtl s.interest fd (.add (epollEvents events)) with
      | none => (-1, s)
      | some interest => (1, { s with interest })
    else
      match epollCtl s.interest fd (.mod (epollEvents events)) with
      | none => (-1, s)
      | some interest => (1, { s with interest })

/-- `Poll::removeFd`. -/
def removeFd (s : PollFds) (fd : ℕ) : ℤ × PollFds :=
  match epollCtl s.interest fd .del with
  | none => (-1, s)
  | some interest => (1, { s with interest })

/-- The arguments of an `addFd` are acceptable: it has a callback, or an identifier where that is
    allowed. -/
def Accepts (s : PollFds) (ident : ℤ) (callback : Bool) : Prop :=
  callback = true ∨ s.mAllowNonCallbacks = true ∧ 0 ≤ ident

instance (s : PollFds) (ident : ℤ) (callback : Bool) : Decidable (s.Accepts ident callback) :=
  inferInstanceAs (Decidable (_ ∨ _))

variable {s : PollFds} {fd : ℕ} {ident : ℤ} {events : BitVec 32} {callback : Bool}

theorem addFd_refused (h : ¬s.Accepts ident callback) :
    s.addFd fd ident events callback = (-1, s) := by
  obtain ⟨hcall, hident⟩ := not_or.mp h
  have hnull : callback = false := by simpa using hcall
  unfold addFd
  by_cases hallow : s.mAllowNonCallbacks = false
  · rw [if_pos ⟨hnull, hallow⟩]
  · have hneg : ident < 0 := not_le.mp fun hge => hident ⟨by simpa using hallow, hge⟩
    rw [if_neg fun h => hallow h.2, if_pos ⟨hnull, hneg⟩]

/-- With acceptable arguments the call is an `EPOLL_CTL_ADD`. -/
theorem addFd_accepted (h : s.Accepts ident callback) :
    s.addFd fd ident events callback =
      match epollCtl s.interest fd (.add (epollEvents events)) with
      | none => (-1, s)
      | some interest => (1, { s with interest }) := by
  unfold addFd
  rw [if_neg, if_neg]
  · rfl
  · rintro ⟨hnull, hneg⟩
    rcases h with hcall | ⟨-, hge⟩
    · exact absurd (hcall.symm.trans hnull) (by simp)
    · exact absurd hneg (not_lt.mpr hge)
  · rintro ⟨hnull, hno⟩
    rcases h with hcall | ⟨hallow, -⟩
    · exact absurd (hcall.symm.trans hnull) (by simp)
    · exact absurd (hallow.symm.trans hno) (by simp)

theorem addFd_new (h : s.Accepts ident callback) (hfd : s.interest fd = none) :
    s.addFd fd ident events callback =
      (1, { s with interest := Function.update s.interest fd (some (epollEvents events)) }) := by
  rw [addFd_accepted h]
  simp [epollCtl, hfd]

theorem addFd_again (h : s.Accepts ident callback) (hfd : s.interest fd ≠ none) :
    s.addFd fd ident events callback = (-1, s) := by
  rw [addFd_accepted h]
  simp [epollCtl, Option.isSome_iff_ne_none.mpr hfd]

/-- After a `removeFd` the descriptor is not registered, whatever it returned. -/
theorem removeFd_interest :
    (s.removeFd fd).2 = { s with interest := Function.update s.interest fd none } := by
  unfold removeFd
  cases hfd : s.interest fd with
  | none =>
    have hsame : Function.update s.interest fd none = s.interest := by
      rw [← hfd, Function.update_eq_self]
    simp [epollCtl, hfd, hsame]
  | some old => simp [epollCtl, hfd]

theorem removeFd_failed (h : (s.removeFd fd).1 = -1) : (s.removeFd fd).2 = s := by
  unfold removeFd at h ⊢
  cases hfd : s.interest fd with
  | none => simp [epollCtl, hfd]
  | some old => simp [epollCtl, hfd] at h

end PollFds

/-! ### Histories of calls -/

/-- The calls. -/
inductive FdCall where
  | addFd (fd : ℕ) (ident : ℤ) (events : BitVec 32) (callback : Bool)
  | removeFd (fd : ℕ)
  deriving DecidableEq, Repr

/-- The descriptor of a call. -/
def FdCall.fd : FdCall → ℕ
  | .addFd fd _ _ _ => fd
  | .removeFd fd => fd

/-- A `Poll` and, for each descriptor, the mask that was asked for last and not taken back. -/
structure FdHistory where
  poll : PollFds
  asked : Interest

namespace FdHistory

/-- Nothing was asked for yet. -/
def start (mAllowNonCallbacks : Bool) (mWakeReadPipeFd : ℕ) : FdHistory :=
  ⟨.new mAllowNonCallbacks mWakeReadPipeFd, fun _ => none⟩

/-- What a call returns and makes of the `Poll`. -/
def call (s : FdHistory) : FdCall → ℤ × PollFds
  | .addFd fd ident events callback => s.poll.addFd fd ident events callback
  | .removeFd fd => s.poll.removeFd fd

/-- What a call asks for, whether it succeeds or not. -/
def ask (s : FdHistory) : FdCall → Interest
  | .addFd fd ident events callback =>
    if s.poll.Accepts ident callback then Function.update s.asked fd (some (epollEvents events))
    else s.asked
  | .removeFd fd => Function.update s.asked fd none

/-- A call on a descriptor other than the one of the wake pipe. -/
def Step (s : FdHistory) (c : FdCall) (t : FdHistory) : Prop :=
  c.fd ≠ s.poll.mWakeReadPipeFd ∧ t = ⟨(s.call c).2, s.ask c⟩

/-- The set asked for: the wake pipe and the descriptors. -/
def wanted (s : FdHistory) : Interest :=
  Function.update s.asked s.poll.mWakeReadPipeFd (some epollIn)

/-- The interest set is the one asked for. -/
def InStep (s : FdHistory) : Prop := s.poll.interest = s.wanted

/-- After the call the interest set is the one asked for; an `addFd` with acceptable arguments has
    returned 1 and its mask is in force; a call that returned -1 has left the set alone. -/
structure Obeys (x : Taken FdHistory FdCall) : Prop where
  inStep : x.post.InStep
  replaced : ∀ fd ident events callback, x.act = .addFd fd ident events callback →
    x.pre.poll.Accepts ident callback →
    (x.pre.call x.act).1 = 1 ∧ x.post.poll.interest fd = some (epollEvents events)
  unchanged : (x.pre.call x.act).1 = -1 → x.post.poll.interest = x.pre.poll.interest

/-- If the call is an `addFd` with acceptable arguments, its descriptor is not registered. -/
def NotAgain (x : Taken FdHistory FdCall) : Prop :=
  ∀ fd ident events callback, x.act = .addFd fd ident events callback →
    x.pre.poll.Accepts ident callback → x.pre.poll.interest fd = none

variable {s t : FdHistory} {c : FdCall} {fd : ℕ} {ident : ℤ} {events : BitVec 32} {callback : Bool}
  {mAllowNonCallbacks : Bool} {mWakeReadPipeFd : ℕ} {tr : List (Taken FdHistory FdCall)}

theorem inStep_start : (start mAllowNonCallbacks mWakeReadPipeFd).InStep := rfl

/-- An entry made on both sides. -/
theorem InStep.update (h : s.InStep) (hfd : fd ≠ s.poll.mWakeReadPipeFd) (v : Option (BitVec 32)) :
    InStep ⟨{ s.poll with interest := Function.update s.poll.interest fd v },
      Function.update s.asked fd v⟩ := by
  unfold InStep wanted at h ⊢
  simp only
  rw [h, Function.update_comm hfd.symm]

theorem obeys_removeFd (h : s.InStep) (hstep : Step s (.removeFd fd) t) :
    Obeys ⟨s, .removeFd fd, t⟩ := by
  obtain ⟨hfd, rfl⟩ := hstep
  refine ⟨?_, ?_, ?_⟩
  · simp only [call, ask, PollFds.removeFd_interest]
    exact h.update hfd none
  · rintro _ _ _ _ ⟨⟩
  · intro hfail
    exact congrArg PollFds.interest (PollFds.removeFd_failed hfail)

/-- An `addFd` obeys exactly if it is refused for its arguments or its descriptor is new. -/
theorem obeys_addFd_iff (h : s.InStep) (hstep : Step s (.addFd fd ident events callback) t) :
    Obeys ⟨s, .addFd fd ident events callback, t⟩ ↔
      (s.poll.Accepts ident callback → s.poll.interest fd = none) := by
  obtain ⟨hfd, rfl⟩ := hstep
  constructor
  · intro hobeys hacc
    by_contra hold
    have hone := (hobeys.replaced fd ident events callback rfl hacc).1
    simp only [call, PollFds.addFd_again hacc hold] at hone
    exact absurd hone (by decide)
  · intro hnew
    by_cases hacc : s.poll.Accepts ident callback
    · have hcall : s.poll.addFd fd ident events callback = _ :=
        PollFds.addFd_new hacc (hnew hacc)
      refine ⟨?_, ?_, ?_⟩
      · simp only [call, ask, hcall, if_pos hacc]
        exact h.update hfd _
      · rintro _ _ _ _ ⟨⟩ -
        simp only [call, hcall, Function.update_self, and_self]
      · intro hfail
        simp only [call, hcall] at hfail
        exact absurd hfail (by decide)
    · have hcall : s.poll.addFd fd ident events callback = (-1, s.poll) :=
        PollFds.addFd_refused hacc
      refine ⟨?_, ?_, ?_⟩
      · simp only [call, ask, hcall, if_neg hacc]
        exact h
      · rintro _ _ _ _ ⟨⟩ hacc'
        exact absurd hacc' hacc
      · intro _
        simp only [call, hcall]

theorem obeys_iff (h : s.InStep) (hstep : Step s c t) :
    Obeys ⟨s, c, t⟩ ↔ NotAgain ⟨s, c, t⟩ := by
  cases c with
  | addFd fd ident events callback =>
    rw [obeys_addFd_iff h hstep]
    constructor
    · rintro hnew _ _ _ _ ⟨⟩
      exact hnew
    · intro hnew
      exact hnew fd ident events callback rfl
  | removeFd fd =>
    refine iff_of_true (obeys_removeFd h hstep) ?_
    rintro _ _ _ _ ⟨⟩

/-- All calls of a history keep the interest set in step with what was asked for, replace and return 1
    as they should, exactly if no descriptor is added while it is registered. -/
theorem interest_set_iff (hrun : Run Step (start mAllowNonCallbacks mWakeReadPipeFd) tr s) :
    (∀ x ∈ tr, Obeys x) ↔ ∀ x ∈ tr, NotAgain x := by
  refine hrun.forall_iff (I := InStep) inStep_start ?_ ?_
  · intro x _ hstep hpre
    exact obeys_iff hpre hstep
  · intro x _ hstep hpre hno
    exact ((obeys_iff hpre hstep).mpr hno).inStep

/-- A descriptor is added, removed and added again with another mask; a call without a callback is
    refused. -/
theorem interest_set_run : ∃ tr s, Run Step (start false 3) tr s ∧
    tr.map Taken.act = [.addFd 7 0 alooperEventInput true, .removeFd 7,
      .addFd 7 0 alooperEventOutput true, .addFd 7 0 alooperEventInput false] ∧
    s.poll.interest 7 = some epollOut ∧ ∀ x ∈ tr, Obeys x := by
  have h₀ : Run Step (start false 3) [] _ := Run.nil
  have h₁ := h₀.snoc (a := FdCall.addFd 7 0 alooperEventInput true) ⟨by decide, rfl⟩
  have h₂ := h₁.snoc (a := FdCall.removeFd 7) ⟨by decide, rfl⟩
  have h₃ := h₂.snoc (a := FdCall.addFd 7 0 alooperEventOutput true) ⟨by decide, rfl⟩
  have h₄ := h₃.snoc (a := FdCall.addFd 7 0 alooperEventInput false) ⟨by decide, rfl⟩
  refine ⟨_, _, h₄, rfl, rfl, (interest_set_iff h₄).mpr ?_⟩
  simp only [List.nil_append, List.cons_append, List.forall_mem_cons]
  refine ⟨?_, ?_, ?_, ?_, by simp⟩
  · rintro _ _ _ _ ⟨⟩ -
    rfl
  · rintro _ _ _ _ ⟨⟩
  · rintro _ _ _ _ ⟨⟩ -
    rfl
  · rintro _ _ _ _ ⟨⟩ hacc
    exact absurd hacc (by decide)

/-- Adding a descriptor again fails and leaves the old mask in force. -/
theorem interest_not_replaced : ∃ tr s, Run Step (start false 3) tr s ∧
    tr.map Taken.act = [.addFd 7 0 alooperEventInput true, .addFd 7 0 alooperEventOutput true] ∧
    s.poll.interest 7 = some epollIn ∧ s.wanted 7 = some epollOut ∧ ¬∀ x ∈ tr, Obeys x := by
  have h₀ : Run Step (start false 3) [] _ := Run.nil
  have h₁ := h₀.snoc (a := FdCall.addFd 7 0 alooperEventInput true) ⟨by decide, rfl⟩
  have h₂ := h₁.snoc (a := FdCall.addFd 7 0 alooperEventOutput true) ⟨by decide, rfl⟩
  refine ⟨_, _, h₂, rfl, rfl, rfl, ?_⟩
  intro hall
  have hlast := hall _ (List.mem_append_right _ List.mem_cons_self)
  have hone := (hlast.replaced 7 0 alooperEventOutput true rfl (Or.inl rfl)).1
  exact absurd hone (by decide)

end FdHistory

end ThreadManager
