import GraphRelay.Fault

/-!
# Message kinds

What a message is about. The kind alone decides which sections a key/value message carries.
-/
namespace GraphRelay

inductive MessageKind where
  /-- A sampled subgraph. -/
  | nodeFlow
  /-- The end of a stream. -/
  | final
  /-- Initial values of a named parameter. -/
  | init
  /-- New values of a named parameter. -/
  | push
  /-- A request for values of a named parameter. -/
  | pull
  /-- The values that answer a request. -/
  | pullResponse
  /-- A synchronisation point. -/
  | barrier
  /-- A peer's address. -/
  | idExchange
  deriving DecidableEq, Repr

namespace MessageKind

/-- Every kind, in the order of the tags. -/
def all : List MessageKind :=
  [nodeFlow, final, init, push, pull, pullResponse, barrier, idExchange]

def tag : MessageKind → Int32
  | nodeFlow => 0
  | final => 1
  | init => 2
  | push => 3
  | pull => 4
  | pullResponse => 5
  | barrier => 6
  | idExchange => 7

def name : MessageKind → String
  | nodeFlow => "NodeFlow"
  | final => "Final"
  | init => "Init"
  | push => "Push"
  | pull => "Pull"
  | pullResponse => "PullResponse"
  | barrier => "Barrier"
  | idExchange => "IdExchange"

def ofTag (t : Int32) : Except Fault MessageKind :=
  match all.find? (·.tag = t) with
  | some k => .ok k
  | none => .error (.unknownKind t.toInt)

def isKeyValue (k : MessageKind) : Bool := k ≠ nodeFlow

def carriesName : MessageKind → Bool
  | init | push | pull | pullResponse | idExchange => true
  | nodeFlow | final | barrier => false

def carriesIds : MessageKind → Bool
  | init | push | pull | pullResponse => true
  | nodeFlow | final | barrier | idExchange => false

def carriesValues : MessageKind → Bool
  | init | push | pullResponse => true
  | nodeFlow | final | pull | barrier | idExchange => false

/-- How many arrays follow the header of a key/value message that carries ids. -/
def arrayCount (k : MessageKind) : Nat := if k.carriesValues then 2 else 1

end MessageKind

end GraphRelay
