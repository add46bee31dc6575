import GraphRelay.Fault
import GraphRelay.Message.Basic

/-!
# Bounded queues

A first-in first-out queue of messages whose payloads together take at most `capacity` bytes. A push
that does not fit yet waits for room, a pop from an empty queue waits for a message. A closed queue
takes nothing more, and its consumers see the end once it is drained.
-/
namespace GraphRelay

structure Queue where
  capacity : Nat
  /-- Oldest first. -/
  items : List Message
  /-- The bytes that the payloads in the queue take. -/
  used : Nat
  closed : Bool
  deriving DecidableEq, Repr

namespace Queue

def empty (capacity : Nat) : Queue := ⟨capacity, [], 0, false⟩

/-- What becomes of a push. -/
inductive Push where
  | accepted (queue : Queue)
  | refused (fault : Fault)
  | waits
  deriving DecidableEq, Repr

/-- What becomes of a pop. -/
inductive Pop where
  | message (message : Message) (queue : Queue)
  | ended
  | waits
  deriving DecidableEq, Repr

/-- A message that can never fit is refused even by a closed queue for its size. -/
def push (q : Queue) (m : Message) : Push :=
  if q.capacity < m.length then .refused (.oversized m.length q.capacity)
  else if q.closed then .refused .queueClosed
  else if q.capacity < q.used + m.length then .waits
  else .accepted { q with items := q.items ++ [m], used := q.used + m.length }

/-- The oldest message and the queue without it. -/
def takeFirst (q : Queue) : Option (Message × Queue) :=
  match q.items with
  | [] => none
  | m :: rest => some (m, { q with items := rest, used := q.used - m.length })

def pop (q : Queue) : Pop :=
  match q.takeFirst with
  | some (m, q) => .message m q
  | none => if q.closed then .ended else .waits

def close (q : Queue) : Queue := { q with closed := true }

/-- Closed and drained. -/
def isFinished (q : Queue) : Bool := q.closed && q.items.isEmpty

def payloads (q : Queue) : List Bytes := q.items.map Message.payload

/-- The queue with nothing left in it. -/
def drained (q : Queue) : Queue := { q with items := [], used := 0 }

end Queue

end GraphRelay
