import ThreadManager.Schemes.Heap

/-! The `Looper` of a thread: `Looper::setForThread`, `Looper::getForThread` and `Looper::myLooper` of
    Looper.cpp.

    `setForThread` returns without an effect when nothing is associated yet, and nothing is ever
    associated in another way. So no history associates a looper with any thread, and what the calls
    are to give, the argument of the latest `setForThread`, is what they do give only when that is
    NULL. -/

namespace ThreadManager
open Schemes

/-- Each thread's value of `gTLSLooperKey`. -/
abbrev LooperKey := ℕ → Ptr

namespace LooperKey

/-- No thread has a value. -/
def start : LooperKey := fun _ => none

/-- `Looper::getForThread` on thread `t`. -/
def getForThread (key : LooperKey) (t : ℕ) : Ptr := key t

/-- `Looper::myLooper` on thread `t`. -/
def myLooper (key : LooperKey) (t : ℕ) : Ptr :=
  let looper := key.getForThread t
  looper

/-- `Looper::setForThread` on thread `t`. -/
def setForThread (key : LooperKey) (t : ℕ) (looper : Ptr) : LooperKey :=
  let old := key.getForThread t
  if old = none then key else Function.update key t looper

end LooperKey

/-- The calls, with the thread that makes them. -/
inductive LooperCall where
  | setForThread (t : ℕ) (looper : Ptr)
  | getForThread (t : ℕ)
  | myLooper (t : ℕ)
  deriving DecidableEq, Repr

namespace LooperCall

def thread : LooperCall → ℕ
  | setForThread t _ => t
  | getForThread t => t
  | myLooper t => t

/-- The values after a call. -/
def exec (key : LooperKey) : LooperCall → LooperKey
  | setForThread t looper => key.setForThread t looper
  | _ => key

/-- The values after some calls, the first one first. -/
def after (calls : List LooperCall) : LooperKey := calls.foldl exec .start

/-- What the calls are for: `setForThread` associates its argument with its thread. -/
def associate (m : ℕ → Ptr) : LooperCall → ℕ → Ptr
  | setForThread t looper => Function.update m t looper
  | _ => m

/-- The argument of the latest `setForThread` of each thread, NULL if there was none. -/
def latest (calls : List LooperCall) : ℕ → Ptr := calls.foldl associate fun _ => none

variable {key : LooperKey} {c : LooperCall} {t : ℕ}

/-- From threads without a value no call makes one. -/
theorem exec_start : exec .start c = .start := by
  cases c <;> rfl

theorem after_eq_start (calls : List LooperCall) : after calls = .start := by
  unfold after
  induction calls with
  | nil => rfl
  | cons c calls ih => rw [List.foldl_cons, exec_start, ih]

/-- Whatever the values are, a call leaves those of the other threads alone. -/
theorem exec_of_ne (h : c.thread ≠ t) : exec key c t = key t := by
  cases c with
  | setForThread u looper =>
    have hne : t ≠ u := fun heq => h heq.symm
    rw [exec, LooperKey.setForThread]
    split
    · rfl
    · exact Function.update_of_ne hne _ _
  | getForThread u => rfl
  | myLooper u => rfl

/-- After any calls both functions give a thread the argument of its latest `setForThread` exactly
    when that is NULL; and no call changes what another thread gets. -/
theorem for_thread_when (calls : List LooperCall) (t : ℕ) :
    ((after calls).getForThread t = latest calls t ∧ (after calls).myLooper t = latest calls t ↔
      latest calls t = none) ∧
    ∀ c : LooperCall, c.thread ≠ t →
      (exec (after calls) c).getForThread t = (after calls).getForThread t := by
  refine ⟨?_, fun c hc => exec_of_ne hc⟩
  rw [after_eq_start]
  constructor
  · rintro ⟨hget, -⟩
    exact hget.symm
  · intro hnone
    rw [hnone]
    exact ⟨rfl, rfl⟩

/-- A looper is set on thread 0, and `getForThread` gives NULL there. -/
theorem for_thread_set : latest [setForThread 0 (some 5)] 0 = some 5 ∧
    (after [setForThread 0 (some 5)]).getForThread 0 = none := ⟨rfl, rfl⟩

end LooperCall

end ThreadManager
