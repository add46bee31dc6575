import GraphRelay.Queue.Basic

/-!
# Pumping messages through a queue

A producer pushes its messages in order, skips those the queue refuses, and closes the queue; a
consumer pops until it sees the end. `produce` and `consume` are their single steps, `Pump.Step` any
interleaving of them, and `Pump.run` the interleaving in which the producer goes as far as it can.
-/
namespace GraphRelay

structure Pump where
  queue : Queue
  /-- What the producer has yet to push. -/
  unsent : List Message
  /-- For each message pushed so far why it was refused, if it was. -/
  outcomes : List (Option Fault)
  popped : List Message
  released : List Nat
  /-- Whether the consumer has seen the end. -/
  ended : Bool
  deriving DecidableEq, Repr

namespace Pump

def start (capacity : Nat) (messages : List Message) : Pump :=
  ⟨.empty capacity, messages, [], [], [], false⟩

/-- The producer's next step, if it has one that need not wait. -/
def produce (p : Pump) : Option Pump :=
  match p.unsent with
  | [] => if p.queue.closed then none else some { p with queue := p.queue.close }
  | m :: rest =>
    match p.queue.push m with
    | .accepted q => some { p with queue := q, unsent := rest, outcomes := p.outcomes ++ [none] }
    | .refused f =>
      some { p with unsent := rest, outcomes := p.outcomes ++ [some f],
                    released := p.released ++ m.release.toList }
    | .waits => none

/-- The consumer's next step, if it has one that need not wait. -/
def consume (p : Pump) : Option Pump :=
  if p.ended then none
  else
    match p.queue.pop with
    | .message m q =>
      some { p with queue := q, popped := p.popped ++ [m],
                    released := p.released ++ m.release.toList }
    | .ended => some { p with ended := true }
    | .waits => none

/-- One step of either side. -/
inductive Step : Pump → Pump → Prop where
  | produce {p q : Pump} : p.produce = some q → Step p q
  | consume {p q : Pump} : p.consume = some q → Step p q

/-- The producer is through and the consumer has seen the end. -/
def isFinal (p : Pump) : Bool := p.unsent.isEmpty && p.queue.closed && p.ended

/-- Up to `n` steps, the producer's first. -/
def steps : Nat → Pump → Pump
  | 0, p => p
  | n + 1, p =>
    match p.produce.orElse fun () => p.consume with
    | some p => steps n p
    | none => p

/-- Every message takes at most a push and a pop; closing and seeing the end take one step each. -/
def run (capacity : Nat) (messages : List Message) : Pump :=
  steps (2 * messages.length + 2) (start capacity messages)

end Pump

end GraphRelay
