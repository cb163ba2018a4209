import ThreadManager.Queue.TimedInsert

/-! `class Message` of Message.h and Message.cpp.

    A message object is its two links and the fields below. `mData` and `mSize` are left out: no
    function of the repository reads them. The time in `when` is the creation stamp: `createMessage`
    is the only place that writes it, and `getWhen` is what every due test and every comparison of
    the queue reads. -/

namespace ThreadManager
open Schemes

/-- The identity of a `MessageHandlerInterface`. -/
abbrev Target := ℕ

/-- The constants of `Message::type`. -/
inductive MessageType where
  | haveCallback
  | noReceiver
  deriving DecidableEq, Repr

/-- What `Message` adds to its links; a NULL `mTarget` is `none`. -/
structure Message where
  when : ℤ
  mTarget : Option Target
  flags : BitVec 32
  type : MessageType
  deriving DecidableEq, Repr

namespace Message

def flagInUse : BitVec 32 := 1#32 <<< 0

def flagFree : BitVec 32 := 1#32 <<< 1

instance : Timed Message := ⟨Message.when⟩

def getTarget (m : Message) : Option Target := m.mTarget

def getType (m : Message) : MessageType := m.type

def markInUse (m : Message) : Message := { m with flags := m.flags ||| flagInUse }

/-- `createMessage`, at the clock reading `now`; `Link()` starts with NULL links. -/
def createMessage (target : Option Target) (now : ℤ) : Link Message :=
  ⟨none, none, { when := now, mTarget := target, flags := flagFree, type := .haveCallback }⟩

@[simp] theorem getWhen_eq (m : Message) : getWhen m = m.when := rfl

@[simp] theorem getWhen_createMessage (target : Option Target) (now : ℤ) :
    getWhen (createMessage target now).obj = now := rfl

@[simp] theorem getTarget_createMessage (target : Option Target) (now : ℤ) :
    (createMessage target now).obj.getTarget = target := rfl

/-- Marking changes neither the stamp nor the target. -/
@[simp] theorem getWhen_markInUse (m : Message) : getWhen m.markInUse = getWhen m := rfl

@[simp] theorem getTarget_markInUse (m : Message) : m.markInUse.getTarget = m.getTarget := rfl

end Message

end ThreadManager
