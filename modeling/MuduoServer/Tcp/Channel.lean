import Mathlib.Data.List.Basic

namespace MuduoServer

/-- The event bits of `sys/epoll.h`. -/
def EPOLLIN : UInt32 := 1
def EPOLLPRI : UInt32 := 2
def EPOLLOUT : UInt32 := 4
def EPOLLET : UInt32 := 2147483648

/-- `Channel`, with the events that epoll was last told to watch for it. -/
structure Channel where
  listenEvent : UInt32
  flushable : Bool
  inEpoll : Bool
  watched : UInt32
  deriving DecidableEq, Repr

namespace Channel

def updateEvent (c : Channel) (event : UInt32) (enable : Bool) : Channel :=
  { c with
    listenEvent := if enable then c.listenEvent ||| event else c.listenEvent &&& ~~~event
    flushable := true }

/-- The constructor. -/
def new (enableReading enableWriting useET : Bool) : Channel :=
  let c : Channel := ⟨0, false, false, 0⟩
  let c := if enableReading then c.updateEvent (EPOLLIN ||| EPOLLPRI) true else c
  let c := if enableWriting then c.updateEvent EPOLLOUT true else c
  if useET then c.updateEvent EPOLLET true else c

/-- `flushEvent`, with an `epoll_ctl` that succeeds. -/
def flushEvent (c : Channel) : Channel :=
  if c.flushable then
    { c with flushable := false, inEpoll := true, watched := c.listenEvent }
  else
    c

def isWriting (c : Channel) : Bool := c.listenEvent &&& EPOLLOUT != 0

def enableWriting (c : Channel) : Channel := (c.updateEvent EPOLLOUT true).flushEvent
def disableWriting (c : Channel) : Channel := (c.updateEvent EPOLLOUT false).flushEvent

theorem flushEvent_isWriting (c : Channel) : c.flushEvent.isWriting = c.isWriting := by
  rw [flushEvent]
  split_ifs <;> rfl

theorem or_and_self (x y : UInt32) : (x ||| y) &&& y = y := by
  apply UInt32.toBitVec_inj.mp
  ext i hi
  simp only [UInt32.toBitVec_and, UInt32.toBitVec_or, BitVec.getElem_and, BitVec.getElem_or]
  cases y.toBitVec[i] <;> simp

theorem and_not_and (x y : UInt32) : (x &&& ~~~y) &&& y = 0 := by
  apply UInt32.toBitVec_inj.mp
  ext i hi
  simp only [UInt32.toBitVec_and, UInt32.toBitVec_not, BitVec.getElem_and, BitVec.getElem_not]
  cases y.toBitVec[i] <;> simp

@[simp] theorem enableWriting_isWriting (c : Channel) : c.enableWriting.isWriting = true := by
  rw [enableWriting, flushEvent_isWriting]
  simp only [isWriting, updateEvent, if_true, or_and_self]
  decide

@[simp] theorem disableWriting_isWriting (c : Channel) : c.disableWriting.isWriting = false := by
  rw [disableWriting, flushEvent_isWriting]
  simp only [isWriting, updateEvent, Bool.false_eq_true, if_false, and_not_and]
  decide

end Channel

end MuduoServer
