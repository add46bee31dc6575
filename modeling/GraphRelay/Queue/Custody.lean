import GraphRelay.Queue.Basic

/-!
# Custody of messages

Who holds a message, and when its release is announced. A message is held by the queue that accepted
it, then by the consumer that popped and kept it; the release is announced the moment nobody holds
it any more. A refused message is given up at once.
-/
namespace GraphRelay

/-- A queue, the messages its consumer keeps, and the releases announced so far. -/
structure Custody where
  queue : Queue
  /-- Oldest first. -/
  held : List Message
  released : List Nat
  deriving DecidableEq, Repr

namespace Custody

/-- What a consumer does with a message it popped. -/
inductive Use where
  | drop
  | unwrap
  | keep
  deriving DecidableEq, Repr

inductive Step where
  | push (m : Message)
  /-- Pops, and waits for a message if need be. -/
  | pop (use : Use)
  /-- Pops if there is a message now. -/
  | tryPop (use : Use)
  | close
  | dropHeld
  deriving DecidableEq, Repr

inductive Outcome where
  | done
  | popped (m : Message)
  | nothing
  | refused (fault : Fault)
  | waits
  deriving DecidableEq, Repr

def start (capacity : Nat) : Custody := ⟨.empty capacity, [], []⟩

/-- The tokens that giving up `ms` announces, in that order. -/
def tokens (ms : List Message) : List Nat := ms.filterMap Message.release

def giveUp (c : Custody) (ms : List Message) : Custody :=
  { c with released := c.released ++ tokens ms }

def receive (c : Custody) (m : Message) (q : Queue) : Use → Custody
  | .keep => { c with queue := q, held := c.held ++ [m] }
  | .drop | .unwrap => { c with queue := q }.giveUp [m]

/-- A push or pop that would have to wait is not made; the message of such a push is given up. -/
def step (c : Custody) : Step → Custody × Outcome
  | .push m =>
    match c.queue.push m with
    | .accepted q => ({ c with queue := q }, .done)
    | .refused f => (c.giveUp [m], .refused f)
    | .waits => (c.giveUp [m], .waits)
  | .pop use =>
    match c.queue.pop with
    | .message m q => (c.receive m q use, .popped m)
    | .ended => (c, .nothing)
    | .waits => (c, .waits)
  | .tryPop use =>
    match c.queue.takeFirst with
    | some (m, q) => (c.receive m q use, .popped m)
    | none => (c, .nothing)
  | .close => ({ c with queue := c.queue.close }, .done)
  | .dropHeld => ({ c with held := [] }.giveUp c.held, .done)

/-- The kept messages are given up, then those still in the queue. -/
def finish (c : Custody) : Custody :=
  let c := { c with held := [] }.giveUp c.held
  { c with queue := c.queue.drained }.giveUp c.queue.items

/-- The state after a list of steps. -/
def run (c : Custody) (steps : List Step) : Custody :=
  steps.foldl (fun c s => (c.step s).1) c

end Custody

end GraphRelay
