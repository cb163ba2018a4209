import ThreadManager.Schemes.RoundRobin
import ThreadManager.Poll.InterestSet
import ThreadManager.Poll.PollOnce

/-! The events of `Poll::pollInner`, with the descriptors of `addFd`.

    An `epoll_wait` returns `EPOLL_MAX_EVENTS` events at most. `pollInner` goes through them in a loop:
    for the read end of the wake pipe it calls `awoken`, an event of any other descriptor is only
    logged, and the result is a wake in any case. With more descriptors ready than fit, `epoll_wait`
    goes through them round robin. So the byte of a wake may be passed over, but not for ever; and
    with no more descriptors than fit, `pollInner` is the one of `PollSys`. -/

namespace ThreadManager
open Schemes

/-- `EPOLLERR` and `EPOLLHUP`, which are reported without being asked for. -/
def epollErr : BitVec 32 := 0x008#32

def epollHup : BitVec 32 := 0x010#32

/-- `EPOLL_MAX_EVENTS`. -/
def epollMaxEvents : ℕ := 8

/-- `epoll_event`. -/
structure EventItem where
  fd : ℕ
  events : BitVec 32
  deriving DecidableEq, Repr

/-- The body of the `for` loop. -/
def handleEvent (mWakeReadPipeFd n : ℕ) (mPipe : WakePipe) (item : EventItem) :
    Outcome Fault WakePipe :=
  if item.fd = mWakeReadPipeFd then
    if item.events &&& epollIn ≠ 0 then mPipe.awoken n
    else .done mPipe
  else .done mPipe

/-- The `for` loop. -/
def handleEvents (mWakeReadPipeFd n : ℕ) : WakePipe → List EventItem → Outcome Fault WakePipe
  | mPipe, [] => .done mPipe
  | mPipe, item :: eventItems => do
    let mPipe ← handleEvent mWakeReadPipeFd n mPipe item
    handleEvents mWakeReadPipeFd n mPipe eventItems

/-- A `Poll` with its interest set and its pipe, the events that other descriptors have, and the
    registered descriptors in the order in which `epoll_wait` looks at them. -/
structure EpollSys where
  poll : PollFds
  mPipe : WakePipe
  others : ℕ → BitVec 32
  order : List ℕ

/-- The steps: calls of `addFd` and `removeFd`, wakes, changes of other descriptors, and calls of
    `pollInner` with what their `epoll_wait` returns. A descriptor that becomes ready may be put
    behind those that are. -/
inductive EpollAct where
  | call (c : FdCall)
  | wake (back : Bool)
  | change (fd : ℕ) (events : BitVec 32) (back : Bool)
  | pollInner (r : EpollWait)
  deriving DecidableEq, Repr

namespace EpollSys

/-- A `Poll` is constructed. -/
def start (mAllowNonCallbacks : Bool) (mWakeReadPipeFd : ℕ) (mPipe : WakePipe) : EpollSys :=
  ⟨.new mAllowNonCallbacks mWakeReadPipeFd, mPipe, fun _ => 0, [mWakeReadPipeFd]⟩

/-- The events a descriptor has. The write end of the pipe stays open. -/
def pending (s : EpollSys) (fd : ℕ) : BitVec 32 :=
  if fd = s.poll.mWakeReadPipeFd then if 0 < s.mPipe.count then epollIn else 0 else s.others fd

/-- The events `epoll_wait` reports of it. -/
def events (s : EpollSys) (fd : ℕ) : BitVec 32 :=
  match s.poll.interest fd with
  | none => 0
  | some mask => s.pending fd &&& (mask ||| epollErr ||| epollHup)

def ready (s : EpollSys) (fd : ℕ) : Bool := s.events fd ≠ 0

/-- `epoll_wait`, with as many events as fit. -/
def epollWait (s : EpollSys) : List EventItem × EpollSys :=
  ((serve s.ready epollMaxEvents s.order).1.map fun fd => ⟨fd, s.events fd⟩,
    { s with order := round s.ready epollMaxEvents s.order })

/-- `Poll::pollInner`, when its `epoll_wait` returns events. -/
def pollInner (n : ℕ) (s : EpollSys) : Outcome Fault EpollSys := do
  let (eventItems, s) := s.epollWait
  let mPipe ← handleEvents s.poll.mWakeReadPipeFd n s.mPipe eventItems
  return { s with mPipe }

/-- A call, which may enter its descriptor or take it out. -/
def call (s : EpollSys) : FdCall → EpollSys
  | .addFd fd ident events callback =>
    let (r, poll) := s.poll.addFd fd ident events callback
    { s with poll, order := if r = 1 then s.order ++ [fd] else s.order }
  | .removeFd fd =>
    let (r, poll) := s.poll.removeFd fd
    { s with poll, order := if r = 1 then s.order.erase fd else s.order }

/-- A registered descriptor moves to the end. -/
def queue (s : EpollSys) (fd : ℕ) (back : Bool) : EpollSys :=
  { s with order := if back ∧ fd ∈ s.order then toBack fd s.order else s.order }

/-- The steps. As before, the descriptor of the wake pipe is not in the hands of callers. -/
inductive Step (s : EpollSys) : EpollAct → EpollSys → Prop
  | call {c} (h : c.fd ≠ s.poll.mWakeReadPipeFd) : Step s (.call c) (s.call c)
  | wake {back} (h : back = true → s.mPipe.count = 0) :
      Step s (.wake back) ({ s with mPipe := s.mPipe.wake }.queue s.poll.mWakeReadPipeFd back)
  | change {fd events back} (h : fd ≠ s.poll.mWakeReadPipeFd) :
      Step s (.change fd events back)
        ({ s with others := Function.update s.others fd events }.queue fd back)
  | events {t} (hready : ∃ fd ∈ s.order, s.ready fd = true)
      (h : Completes (fun n => s.pollInner n) t) :
      Step s (.pollInner .events) t
  | fails {r} (h : r ≠ .events) (htimeout : r = .timeout → ∀ fd ∈ s.order, s.ready fd = false) :
      Step s (.pollInner r) s

/-- The order is one of the registered descriptors, the wake pipe among them. -/
structure Registered (s : EpollSys) : Prop where
  nodup : s.order.Nodup
  mem_iff : ∀ fd, fd ∈ s.order ↔ s.poll.interest fd ≠ none
  wakePipe : s.poll.interest s.poll.mWakeReadPipeFd = some epollIn

end EpollSys

/-! ### The loop over the events -/

section handleEvents

variable {mWakeReadPipeFd n : ℕ} {mPipe : WakePipe} {item : EventItem}

theorem handleEvent_stable : Stable (fun n => handleEvent mWakeReadPipeFd n mPipe item) := by
  unfold handleEvent
  split
  · split
    · exact loop_stable _ _
    · exact Stable.const _
  · exact Stable.const _

theorem handleEvents_stable (eventItems : List EventItem) (mPipe : WakePipe) :
    Stable (fun n => handleEvents mWakeReadPipeFd n mPipe eventItems) := by
  induction eventItems generalizing mPipe with
  | nil => exact Stable.const _
  | cons item eventItems ih => exact handleEvent_stable.bind ih

/-- One event leaves the pipe alone, or empties it if the event is a byte in the pipe. -/
theorem handleEvent_cases (mWakeReadPipeFd : ℕ) (mPipe : WakePipe) (item : EventItem)
    (hn : mPipe.count < n) :
    (∃ p', handleEvent mWakeReadPipeFd n mPipe item = .done p' ∧ p'.count = 0 ∧
      p'.capacity = mPipe.capacity ∧ item.fd = mWakeReadPipeFd) ∨
    handleEvent mWakeReadPipeFd n mPipe item = .done mPipe ∧
      ¬(item.fd = mWakeReadPipeFd ∧ item.events &&& epollIn ≠ 0) := by
  unfold handleEvent
  by_cases hfd : item.fd = mWakeReadPipeFd
  · by_cases hin : item.events &&& epollIn ≠ 0
    · obtain ⟨p', hrun, hzero, hcapacity⟩ := mPipe.awoken_empties hn
      refine Or.inl ⟨p', ?_, hzero, hcapacity, hfd⟩
      rw [if_pos hfd, if_pos hin, hrun]
    · refine Or.inr ⟨?_, fun h => hin h.2⟩
      rw [if_pos hfd, if_neg hin]
  · refine Or.inr ⟨?_, fun h => hfd h.1⟩
    rw [if_neg hfd]

/-- The loop returns. It empties the pipe if one of the events is a byte in it, and does nothing if
    none is about the pipe. -/
theorem handleEvents_done (mWakeReadPipeFd : ℕ) (eventItems : List EventItem) (mPipe : WakePipe)
    (hn : mPipe.count < n) :
    ∃ p', handleEvents mWakeReadPipeFd n mPipe eventItems = .done p' ∧
      p'.capacity = mPipe.capacity ∧ (p'.count = 0 ∨ p' = mPipe) ∧
      ((∃ item ∈ eventItems, item.fd = mWakeReadPipeFd ∧ item.events &&& epollIn ≠ 0) →
        p'.count = 0) ∧
      ((∀ item ∈ eventItems, item.fd ≠ mWakeReadPipeFd) → p' = mPipe) := by
  induction eventItems generalizing mPipe with
  | nil => exact ⟨mPipe, rfl, rfl, Or.inr rfl, by simp, fun _ => rfl⟩
  | cons item eventItems ih =>
    rcases handleEvent_cases mWakeReadPipeFd mPipe item hn with
      ⟨q, hq, hzero, hcapacity, hfd⟩ | ⟨hq, hno⟩
    · obtain ⟨p', hp, hcapacity', hcases, -, -⟩ := ih q (by omega)
      have hzero' : p'.count = 0 := by
        rcases hcases with h | rfl
        · exact h
        · exact hzero
      refine ⟨p', ?_, hcapacity'.trans hcapacity, Or.inl hzero', fun _ => hzero', ?_⟩
      · rw [handleEvents, hq]
        exact hp
      · intro h
        exact absurd hfd (h item List.mem_cons_self)
    · obtain ⟨p', hp, hcapacity, hcases, hread, hother⟩ := ih mPipe hn
      refine ⟨p', ?_, hcapacity, hcases, ?_, ?_⟩
      · rw [handleEvents, hq]
        exact hp
      · rintro ⟨x, hx, hbyte⟩
        rcases List.mem_cons.mp hx with rfl | hx
        · exact absurd hbyte hno
        · exact hread ⟨x, hx, hbyte⟩
      · intro h
        exact hother fun x hx => h x (List.mem_cons_of_mem item hx)

end handleEvents

namespace EpollSys

variable {s t : EpollSys} {a : EpollAct} {c : FdCall} {fd n : ℕ} {back : Bool} {mPipe : WakePipe}
  {mAllowNonCallbacks : Bool} {mWakeReadPipeFd : ℕ} {tr : List (Taken EpollSys EpollAct)}

/-! ### The registered descriptors -/

theorem registered_start : (start mAllowNonCallbacks mWakeReadPipeFd mPipe).Registered where
  nodup := List.nodup_singleton _
  mem_iff fd := by
    by_cases hfd : fd = mWakeReadPipeFd
    · subst hfd
      simp [start, PollFds.new]
    · simp [start, PollFds.new, hfd]
  wakePipe := by simp [start, PollFds.new]

theorem Registered.mem_wake (h : s.Registered) : s.poll.mWakeReadPipeFd ∈ s.order :=
  (h.mem_iff _).mpr (by rw [h.wakePipe]; simp)

/-- A step that keeps the interest set, and who is in the order. -/
theorem Registered.congr (h : s.Registered) (hpoll : t.poll = s.poll) (horder : t.order.Perm s.order) :
    t.Registered where
  nodup := horder.nodup_iff.mpr h.nodup
  mem_iff fd := by rw [horder.mem_iff, hpoll, h.mem_iff]
  wakePipe := by rw [hpoll, h.wakePipe]

theorem queue_perm (s : EpollSys) (fd : ℕ) (back : Bool) : (s.queue fd back).order.Perm s.order := by
  unfold queue
  simp only
  split
  case isTrue h => exact toBack_perm h.2
  case isFalse => exact .refl _

/-- What a call does. -/
theorem call_cases (c : FdCall) (s : EpollSys) : (s.call c = s) ∨
    (∃ mask, s.poll.interest c.fd = none ∧ s.call c = { s with
      poll := { s.poll with interest := Function.update s.poll.interest c.fd (some mask) }
      order := s.order ++ [c.fd] }) ∨
    s.poll.interest c.fd ≠ none ∧ s.call c = { s with
      poll := { s.poll with interest := Function.update s.poll.interest c.fd none }
      order := s.order.erase c.fd } := by
  cases c with
  | addFd fd ident events callback =>
    by_cases hacc : s.poll.Accepts ident callback
    · by_cases hfd : s.poll.interest fd = none
      · refine Or.inr (Or.inl ⟨epollEvents events, hfd, ?_⟩)
        simp only [call, PollFds.addFd_new hacc hfd, if_true, FdCall.fd]
      · refine Or.inl ?_
        simp only [call, PollFds.addFd_again hacc hfd]
        rfl
    · refine Or.inl ?_
      simp only [call, PollFds.addFd_refused hacc]
      rfl
  | removeFd fd =>
    by_cases hfd : s.poll.interest fd = none
    · refine Or.inl ?_
      simp [call, PollFds.removeFd, epollCtl, hfd]
    · refine Or.inr (Or.inr ⟨hfd, ?_⟩)
      simp [call, PollFds.removeFd, epollCtl, hfd, Option.isSome_iff_ne_none, FdCall.fd]

theorem Registered.call (h : s.Registered) (hc : c.fd ≠ s.poll.mWakeReadPipeFd) :
    (s.call c).Registered := by
  rcases call_cases c s with heq | ⟨mask, hnone, heq⟩ | ⟨hsome, heq⟩
  · rw [heq]
    exact h
  · rw [heq]
    have hnew : c.fd ∉ s.order := fun hmem => (h.mem_iff _).mp hmem hnone
    refine ⟨?_, ?_, ?_⟩
    · exact (List.perm_append_singleton _ _).nodup_iff.mpr (List.nodup_cons.mpr ⟨hnew, h.nodup⟩)
    · intro fd
      by_cases hfd : fd = c.fd
      · simp [hfd]
      · simp [hfd, h.mem_iff fd]
    · simp only [Function.update_of_ne hc.symm, h.wakePipe]
  · rw [heq]
    refine ⟨h.nodup.erase _, ?_, ?_⟩
    · intro fd
      by_cases hfd : fd = c.fd
      · simp [hfd, h.nodup.not_mem_erase]
      · simp [hfd, List.mem_erase_of_ne hfd, h.mem_iff fd]
    · simp only [Function.update_of_ne hc.symm, h.wakePipe]

theorem call_mPipe (c : FdCall) (s : EpollSys) : (s.call c).mPipe = s.mPipe := by
  rcases call_cases c s with heq | ⟨mask, -, heq⟩ | ⟨-, heq⟩
  all_goals rw [heq]

/-! ### One `pollInner` -/

theorem Registered.events_wake (h : s.Registered) (hcount : 0 < s.mPipe.count) :
    s.events s.poll.mWakeReadPipeFd = epollIn := by
  simp only [events, h.wakePipe, pending, if_true, if_pos hcount]
  rfl

/-- The pipe is ready while a byte is in it. -/
theorem Registered.ready_wake (h : s.Registered) :
    s.ready s.poll.mWakeReadPipeFd = true ↔ 0 < s.mPipe.count := by
  constructor
  · intro hready
    by_contra hno
    simp [ready, events, h.wakePipe, pending, hno] at hready
  · intro hcount
    simp only [ready, h.events_wake hcount]
    rfl

/-- The pipe is emptied if it is among the events, and is as before otherwise. -/
theorem Registered.pollInner (h : s.Registered) (hn : s.mPipe.count < n) :
    ∃ p', s.pollInner n = .done { s with
        mPipe := p'
        order := round s.ready epollMaxEvents s.order } ∧
      p'.capacity = s.mPipe.capacity ∧
      (s.poll.mWakeReadPipeFd ∈ (serve s.ready epollMaxEvents s.order).1 → p'.count = 0) ∧
      (s.poll.mWakeReadPipeFd ∉ (serve s.ready epollMaxEvents s.order).1 → p' = s.mPipe) := by
  obtain ⟨p', hp, hcapacity, -, hread, hother⟩ :=
    handleEvents_done s.poll.mWakeReadPipeFd s.epollWait.1 s.mPipe hn
  refine ⟨p', ?_, hcapacity, ?_, ?_⟩
  · simp only [EpollSys.pollInner]
    simp only [epollWait] at hp ⊢
    rw [hp]
    rfl
  · intro hserved
    have hcount := h.ready_wake.mp (asks_of_mem_serve hserved)
    refine hread ⟨_, List.mem_map_of_mem hserved, rfl, ?_⟩
    simp only [h.events_wake hcount]
    decide
  · intro hpassed
    refine hother ?_
    intro item hitem
    obtain ⟨fd, hfd, rfl⟩ := List.mem_map.mp hitem
    rintro rfl
    exact hpassed hfd

theorem pollInner_stable : Stable (fun n => s.pollInner n) :=
  (handleEvents_stable _ _).bind fun _ => Stable.const _

/-- The same for a call that returned. -/
theorem Registered.of_pollInner (h : s.Registered) (hrun : Completes (fun n => s.pollInner n) t) :
    ∃ p' : WakePipe, t = { s with mPipe := p', order := round s.ready epollMaxEvents s.order } ∧
      p'.capacity = s.mPipe.capacity ∧
      (s.poll.mWakeReadPipeFd ∈ (serve s.ready epollMaxEvents s.order).1 → p'.count = 0) ∧
      (s.poll.mWakeReadPipeFd ∉ (serve s.ready epollMaxEvents s.order).1 → p' = s.mPipe) := by
  obtain ⟨p', hp, hrest⟩ := h.pollInner (Nat.lt_succ_self _)
  exact ⟨p', pollInner_stable.completes_unique hrun ⟨_, hp⟩, hrest⟩

theorem Registered.step (h : s.Registered) (hstep : Step s a t) : t.Registered := by
  cases hstep with
  | call hc => exact h.call hc
  | wake => exact h.congr rfl (queue_perm _ _ _)
  | change => exact h.congr rfl (queue_perm _ _ _)
  | events _ hrun =>
    obtain ⟨p', rfl, -⟩ := h.of_pollInner hrun
    exact h.congr rfl (round_perm _ _ _)
  | fails => exact h

/-! ### No wake is passed over for ever -/

/-- How many descriptors `epoll_wait` looks at before the wake pipe. -/
def ahead (s : EpollSys) : ℕ := s.order.idxOf s.poll.mWakeReadPipeFd

/-- The `epoll_wait` of the step returned events. -/
def Polled (x : Taken EpollSys EpollAct) : Bool := x.act = .pollInner .events

theorem ahead_queue (h : s.Registered) (hfd : back = true → fd ≠ s.poll.mWakeReadPipeFd) :
    (s.queue fd back).ahead ≤ s.ahead := by
  unfold queue ahead
  simp only
  split
  case isTrue hback => exact idxOf_toBack_le h.mem_wake (hfd hback.1)
  case isFalse => exact le_rfl

theorem ahead_call (h : s.Registered) (hc : c.fd ≠ s.poll.mWakeReadPipeFd) :
    (s.call c).ahead ≤ s.ahead := by
  unfold ahead
  rcases call_cases c s with heq | ⟨mask, -, heq⟩ | ⟨-, heq⟩
  · rw [heq]
  · rw [heq]
    exact (List.idxOf_append_of_mem h.mem_wake).le
  · rw [heq]
    exact idxOf_erase_le hc

/-- While a byte is in the pipe, events take the others before it away, or the byte. -/
theorem Registered.ahead_step (h : s.Registered) (hcount : 0 < s.mPipe.count) (hstep : Step s a t) :
    Polled ⟨s, a, t⟩ = true ∧ t.mPipe.count = 0 ∨
      0 < t.mPipe.count ∧
        t.ahead + (if Polled ⟨s, a, t⟩ then epollMaxEvents else 0) ≤ s.ahead := by
  cases hstep with
  | call hc => exact Or.inr ⟨(call_mPipe _ s).symm ▸ hcount, ahead_call h hc⟩
  | wake hback =>
    refine Or.inr ⟨s.mPipe.count_wake_pos, ahead_queue (h.congr rfl (.refl _)) ?_⟩
    intro hb
    exact absurd (hback hb) hcount.ne'
  | change hfd => exact Or.inr ⟨hcount, ahead_queue (h.congr rfl (.refl _)) fun _ => hfd⟩
  | events _ hrun =>
    obtain ⟨p', rfl, -, hserved, hpassed⟩ := h.of_pollInner hrun
    by_cases hmem : s.poll.mWakeReadPipeFd ∈ (serve s.ready epollMaxEvents s.order).1
    · exact Or.inl ⟨rfl, hserved hmem⟩
    · refine Or.inr ⟨(hpassed hmem).symm ▸ hcount, ?_⟩
      exact idxOf_round h.nodup h.mem_wake (h.ready_wake.mpr hcount) hmem
  | @fails r hr =>
    refine Or.inr ⟨hcount, ?_⟩
    rw [if_neg]
    · exact le_rfl
    · simp [Polled, hr]

/-- Whatever descriptors are added, removed or become ready meanwhile: a byte in the pipe is read by
    the time `epoll_wait` has returned events once more than `EPOLL_MAX_EVENTS` goes into the number
    of descriptors before the pipe. -/
theorem wake_not_starved {tr₀ : List (Taken EpollSys EpollAct)}
    (hrun₀ : Run Step (start mAllowNonCallbacks mWakeReadPipeFd mPipe) tr₀ s)
    (hcount : 0 < s.mPipe.count) (hrun : Run Step s tr t)
    (hpolls : s.ahead / epollMaxEvents < tr.countP Polled) :
    ∃ x ∈ tr, Polled x = true ∧ x.post.mPipe.count = 0 := by
  have hs : s.Registered := hrun₀.invariant registered_start fun _ _ hstep h => h.step hstep
  by_contra! hno
  have hstep (x : Taken EpollSys EpollAct) (hx : x ∈ tr) (hst : Step x.pre x.act x.post)
      (h : x.pre.Registered) (hpre : 0 < x.pre.mPipe.count) :=
    (h.ahead_step hpre hst).resolve_left fun hread => hno x hx hread.1 hread.2
  have hbound := hrun.countP_le ahead Polled (m := epollMaxEvents) ?_
  · rw [Nat.div_lt_iff_lt_mul (by decide)] at hpolls
    rw [Nat.mul_comm] at hbound
    omega
  · intro x hx
    have hpre := hrun.invariant_pre (I := fun s => s.Registered ∧ 0 < s.mPipe.count) ⟨hs, hcount⟩
      (fun y hy hst h => ⟨h.1.step hst, (hstep y hy hst h.1 h.2).1⟩) hx
    exact (hstep x hx (hrun.step_of_mem hx) hpre.1 hpre.2).2

end EpollSys

/-! ### The system of `wake` and `pollInner` -/

namespace PollSys

variable {p q : WakePipe} {r : EpollWait} {u : PollSys} {n : ℕ}
  {tr : List (Taken PollSys PollAct)}

/-- What `pollInner` returns in a step. -/
def returned (x : Taken PollSys PollAct) : Option PollResult :=
  match x.act, x.pre.poller with
  | .ret, .done result => some result
  | _, _ => none

/-- The reads of an `awoken`. -/
theorem reads_awoken (writing : ℕ → Bool) (h : p.awoken n = .done q) :
    ∃ tr, Run Step ⟨p, .reading, writing⟩ tr ⟨q, .done .wake, writing⟩ ∧
      ∀ x ∈ tr, x.act = .read false := by
  induction n generalizing p with
  | zero => cases h
  | succ n ih =>
    have hread : Step ⟨p, .reading, writing⟩ (.read false)
        (exec ⟨p, .reading, writing⟩ (.read false)) := ⟨rfl, rfl⟩
    rw [WakePipe.awoken, loop] at h
    rcases p.awokenPass_cases with ⟨p', hpass, -⟩ | ⟨p', hpass, -⟩
    · rw [hpass] at h
      obtain ⟨tr, hrun, hreads⟩ := ih h
      simp only [exec, hpass] at hread
      exact ⟨_, hrun.cons hread, List.forall_mem_cons.mpr ⟨rfl, hreads⟩⟩
    · rw [hpass] at h
      obtain rfl := Outcome.done.inj h
      simp only [exec, hpass] at hread
      exact ⟨_, Run.nil.snoc hread, List.forall_mem_singleton.mpr rfl⟩

theorem returned_reads (h : ∀ x ∈ tr, x.act = .read false) : tr.filterMap returned = [] := by
  refine List.filterMap_eq_nil_iff.mpr ?_
  intro x hx
  simp only [returned, h x hx]

/-- A whole `pollInner`, from its `epoll_wait` on. -/
theorem pollInner_run (hwait : Step ⟨p, .waiting, fun _ => false⟩ (.epollWait r) u)
    (hrun : Run Step u tr ⟨q, .done r.result, fun _ => false⟩)
    (hreads : ∀ x ∈ tr, x.act = .read false) :
    ∃ tr', Run Step (start p) tr' (start q) ∧ tr'.filterMap returned = [r.result] := by
  have hcall : Step (start p) .pollInner ⟨p, .waiting, fun _ => false⟩ := ⟨rfl, rfl⟩
  have hret : Step ⟨q, .done r.result, fun _ => false⟩ .ret (start q) := ⟨⟨_, rfl⟩, rfl⟩
  refine ⟨_, ((hrun.cons hwait).cons hcall).snoc hret, ?_⟩
  rw [List.filterMap_append, List.filterMap_cons, List.filterMap_cons, returned_reads hreads]
  rfl

/-- Without a read of the pipe. -/
theorem pollInner_run_unread
    (hwait : Step ⟨p, .waiting, fun _ => false⟩ (.epollWait r) ⟨p, .done r.result, fun _ => false⟩) :
    ∃ tr', Run Step (start p) tr' (start p) ∧ tr'.filterMap returned = [r.result] :=
  pollInner_run hwait .nil (by simp)

/-- A whole `wake`. -/
theorem wake_run (p : WakePipe) : ∃ tr, Run Step (start p) tr (start p.wake) ∧
    tr.filterMap returned = [] := by
  have hcall : Step (start p) (.wake 0) ⟨p, .outside, Function.update (fun _ => false) 0 true⟩ :=
    ⟨rfl, rfl⟩
  have hwrite : Step ⟨p, .outside, Function.update (fun _ => false) 0 true⟩ (.write 0 false)
      (start p.wake) := by
    refine ⟨by simp [Enabled], ?_⟩
    simp only [exec, start, Function.update_idem, Function.update_eq_self]
  exact ⟨_, (Run.nil.snoc hcall).snoc hwrite, rfl⟩

end PollSys

namespace EpollSys

variable {s t : EpollSys} {a : EpollAct} {mPipe : WakePipe} {mAllowNonCallbacks : Bool}
  {mWakeReadPipeFd : ℕ} {tr : List (Taken EpollSys EpollAct)}

/-- The result of the `pollInner` of a step. -/
def result (x : Taken EpollSys EpollAct) : Option PollResult :=
  match x.act with
  | .pollInner r => some r.result
  | _ => none

/-- A pipe is its capacity and its count. -/
theorem wakePipe_eq {p q : WakePipe} (hcapacity : p.capacity = q.capacity)
    (hcount : p.count = q.count) : p = q := by
  cases p
  cases q
  simp_all

/-- With no more descriptors than `epoll_wait` returns events, the loop over them is the one read of
    the pipe. -/
theorem Registered.events_run (h : s.Registered) (hfew : s.order.length ≤ epollMaxEvents)
    (hrun : Completes (fun n => s.pollInner n) t) :
    ∃ tr, Run PollSys.Step (.start s.mPipe) tr (.start t.mPipe) ∧
      tr.filterMap PollSys.returned = [.wake] := by
  obtain ⟨p', rfl, hcapacity, hserved, hpassed⟩ := h.of_pollInner hrun
  by_cases hcount : 0 < s.mPipe.count
  · have hzero := hserved (mem_serve_of_length_le h.nodup hfew h.mem_wake (h.ready_wake.mpr hcount))
    obtain ⟨q, hq, hqzero, hqcapacity⟩ := s.mPipe.awoken_empties (Nat.lt_succ_self _)
    obtain rfl : p' = q :=
      wakePipe_eq (hcapacity.trans hqcapacity.symm) (hzero.trans hqzero.symm)
    obtain ⟨tr, hreads, hacts⟩ := PollSys.reads_awoken (fun _ => false) hq
    refine PollSys.pollInner_run (r := .events) ⟨⟨rfl, by simp⟩, rfl⟩ ?_ hacts
    simp only [PollSys.exec, if_pos hcount]
    exact hreads
  · have hsame := hpassed fun hmem => hcount (h.ready_wake.mp (asks_of_mem_serve hmem))
    rw [hsame]
    refine PollSys.pollInner_run_unread (r := .events) ⟨⟨rfl, by simp⟩, ?_⟩
    simp only [PollSys.exec, if_neg hcount]
    rfl

theorem Registered.step_run (h : s.Registered) (hfew : s.order.length ≤ epollMaxEvents)
    (hstep : Step s a t) : ∃ tr, Run PollSys.Step (.start s.mPipe) tr (.start t.mPipe) ∧
      tr.filterMap PollSys.returned = (result ⟨s, a, t⟩).toList := by
  cases hstep with
  | @call c hc =>
    rw [call_mPipe]
    exact ⟨[], .nil, rfl⟩
  | wake => exact PollSys.wake_run s.mPipe
  | change => exact ⟨[], .nil, rfl⟩
  | events _ hrun => exact h.events_run hfew hrun
  | @fails r hr htimeout =>
    cases r with
    | events => exact absurd rfl hr
    | timeout =>
      have hzero : s.mPipe.count = 0 := by
        by_contra hno
        have hready := h.ready_wake.mpr (Nat.pos_of_ne_zero hno)
        rw [htimeout rfl _ h.mem_wake] at hready
        cases hready
      exact PollSys.pollInner_run_unread (r := .timeout) ⟨⟨rfl, fun _ => hzero⟩, rfl⟩
    | eintr => exact PollSys.pollInner_run_unread (r := .eintr) ⟨⟨rfl, by simp⟩, rfl⟩
    | error => exact PollSys.pollInner_run_unread (r := .error) ⟨⟨rfl, by simp⟩, rfl⟩

/-- An empty pipe of four bytes. -/
def emptyPipe : WakePipe := .new 4 (Nat.succ_pos 3)

/-- The descriptors from 4 on, `k` of them, have been added, and are ready. -/
structure Crowd (k : ℕ) (s : EpollSys) : Prop where
  order : s.order = 3 :: List.range' 4 k
  wakePipe : s.poll.mWakeReadPipeFd = 3
  mPipe : s.mPipe = emptyPipe
  asks : ∀ fd ∈ List.range' 4 k, s.poll.interest fd = some epollIn ∧ s.others fd = epollIn

/-- Any number of descriptors can be added and become ready. -/
theorem runs_crowd (k : ℕ) : ∃ tr s, Run Step (start false 3 emptyPipe) tr s ∧ Crowd k s ∧
    (∀ x ∈ tr, x.pre.order.length ≤ k + 1) ∧ tr.filterMap result = [] := by
  induction k with
  | zero => exact ⟨[], _, .nil, ⟨rfl, rfl, rfl, by simp⟩, by simp, rfl⟩
  | succ k ih =>
    obtain ⟨tr, s, hrun, hs, hfew, hsilent⟩ := ih
    have hregistered : s.Registered := hrun.invariant registered_start fun _ _ hstep h => h.step hstep
    have hfd : 4 + k ∉ List.range' 4 k := by simp
    have hnone : s.poll.interest (4 + k) = none := by
      by_contra hno
      have hmem := (hregistered.mem_iff _).mpr hno
      rw [hs.order] at hmem
      rcases List.mem_cons.mp hmem with h | h
      · omega
      · exact hfd h
    have hwake : 4 + k ≠ s.poll.mWakeReadPipeFd := by
      rw [hs.wakePipe]
      omega
    have hadd : s.call (.addFd (4 + k) 0 alooperEventInput true) = { s with
        poll := { s.poll with interest := Function.update s.poll.interest (4 + k) (some epollIn) }
        order := s.order ++ [4 + k] } := by
      simp only [call, PollFds.addFd_new (Or.inl rfl) hnone, if_true]
      rfl
    have hcall : Step s (.call (.addFd (4 + k) 0 alooperEventInput true)) _ := Step.call hwake
    rw [hadd] at hcall
    have hchange := (hrun.snoc hcall).snoc (a := .change (4 + k) epollIn false)
      (Step.change (by exact hwake))
    have hlength : s.order.length = k + 1 := by simp [hs.order]
    refine ⟨_, _, hchange, ⟨?_, hs.wakePipe, hs.mPipe, ?_⟩, ?_, ?_⟩
    · simp [queue, hs.order, List.range'_concat]
    · intro fd hmem
      by_cases heq : fd = 4 + k
      · subst heq
        simp [queue]
      · have hold : fd ∈ List.range' 4 k := by
          simp only [List.mem_range'_1] at hmem ⊢
          omega
        simpa [queue, heq] using hs.asks fd hold
    · intro x hx
      simp only [List.mem_append, List.mem_singleton] at hx
      rcases hx with (hx | rfl) | rfl
      · exact (hfew x hx).trans (Nat.le_succ _)
      · simp [hlength]
      · simp [hlength]
    · rw [filterMap_concat, filterMap_concat, hsilent]
      rfl

theorem Crowd.events {k : ℕ} (h : Crowd k s) {fd : ℕ} (hfd : fd ∈ List.range' 4 k) :
    s.events fd = epollIn := by
  obtain ⟨hinterest, hothers⟩ := h.asks fd hfd
  have hne : fd ≠ s.poll.mWakeReadPipeFd := by
    rw [h.wakePipe]
    simp only [List.mem_range'_1] at hfd
    omega
  simp only [EpollSys.events, hinterest, pending, if_neg hne, hothers]
  decide

theorem ready_of_events {fd : ℕ} (h : s.events fd = epollIn) : s.ready fd = true := by
  simp only [ready, h]
  rfl

/-- A wake behind the other descriptors. -/
theorem Crowd.wake {k : ℕ} (h : Crowd k s) : ∃ t, Step s (.wake true) t ∧
    t.order = List.range' 4 k ++ [3] ∧ t.poll = s.poll ∧ 0 < t.mPipe.count ∧
    ∀ fd ∈ List.range' 4 k, t.events fd = epollIn := by
  refine ⟨_, Step.wake fun _ => by rw [h.mPipe]; rfl, ?_, rfl, s.mPipe.count_wake_pos, ?_⟩
  · simp [queue, h.order, h.wakePipe, toBack]
  · intro fd hfd
    have hne : fd ≠ 3 := by
      simp only [List.mem_range'_1] at hfd
      omega
    have hevents := h.events hfd
    simp only [EpollSys.events, pending, h.wakePipe, if_neg hne, queue] at hevents ⊢
    exact hevents

/-- Nine descriptors are ready before the pipe: the first `pollInner` passes the wake over, and the
    second one reads it. -/
theorem wake_not_starved_woken : ∃ (tr₀ tr : List (Taken EpollSys EpollAct)) (s t : EpollSys),
    Run Step (start false 3 emptyPipe) tr₀ s ∧ s.order = [4, 5, 6, 7, 8, 9, 10, 11, 12, 3] ∧
    (∀ fd ∈ s.order, s.ready fd = true) ∧ Run Step s tr t ∧
    tr.map Taken.act = [.pollInner .events, .pollInner .events] ∧
    (∃ x ∈ tr, 0 < x.post.mPipe.count) ∧ ∃ x ∈ tr, Polled x = true ∧ x.post.mPipe.count = 0 := by
  obtain ⟨tr₀, s₀, hrun₀, hcrowd, -, -⟩ := runs_crowd 9
  obtain ⟨s, hwake, horder, hpoll, hcount, hevents⟩ := hcrowd.wake
  have hrun := hrun₀.snoc hwake
  have hs : s.Registered := hrun.invariant registered_start fun _ _ hstep h => h.step hstep
  have hfd : s.poll.mWakeReadPipeFd = 3 := by rw [hpoll, hcrowd.wakePipe]
  have hpipe := hs.ready_wake.mpr hcount
  have hready : ∀ fd ∈ s.order, s.ready fd = true := by
    intro fd hmem
    rw [horder] at hmem
    rcases List.mem_append.mp hmem with h | h
    · exact ready_of_events (hevents fd h)
    · rw [List.mem_singleton.mp h, ← hfd]
      exact hpipe
  -- eight of the nine are served, and the pipe is not
  obtain ⟨p', hfirst, -, -, hpassed⟩ := hs.pollInner (Nat.lt_succ_self _)
  have hlate : s.poll.mWakeReadPipeFd ∉ (serve s.ready epollMaxEvents s.order).1 := by
    rw [serve_of_all hready, horder, hfd]
    decide
  obtain rfl := hpassed hlate
  have hstep := Step.events ⟨_, hs.mem_wake, hpipe⟩ ⟨_, hfirst⟩
  have ht := hs.step hstep
  obtain ⟨p', hsecond, -⟩ := ht.pollInner (Nat.lt_succ_self _)
  have hstep' := Step.events ⟨_, ht.mem_wake, ht.ready_wake.mpr hcount⟩ ⟨_, hsecond⟩
  have hpolls := (Run.nil.snoc hstep).snoc hstep'
  have hahead : s.ahead = 9 := by
    simp only [ahead, horder, hfd]
    rfl
  have hread := wake_not_starved hrun hcount hpolls (by simp [hahead, Polled, epollMaxEvents])
  exact ⟨_, _, s, _, hrun, horder, hready, hpolls, rfl, ⟨_, List.mem_cons_self, hcount⟩, hread⟩

end EpollSys

end ThreadManager
