import GraphRelay.Queue.Basic
import GraphRelay.Transfer.Basic

/-!
# Links within one process

A queue for every peer that was ever named. Sending never waits: a payload that would have to is
refused. Receiving from any peer takes from the one with the least id that has something queued.
-/
namespace GraphRelay

structure LocalLinks where
  /-- The capacity of every queue. -/
  capacity : Nat
  queues : PeerTable Queue
  deriving DecidableEq, Repr

namespace LocalLinks

def empty (capacity : Nat) : LocalLinks := ⟨capacity, []⟩

def queue (l : LocalLinks) (peer : PeerId) : Queue :=
  (l.queues.find? peer).getD (.empty l.capacity)

def setQueue (l : LocalLinks) (peer : PeerId) (q : Queue) : LocalLinks :=
  { l with queues := l.queues.insert peer q }

def send (peer : PeerId) (payload : Bytes) : LinkAction LocalLinks Unit := do
  let q := (← get).queue peer
  match q.push (.ofBytes payload) with
  | .accepted q => modify (·.setQueue peer q)
  | .refused f =>
    modify (·.setQueue peer q)
    throw f
  | .waits =>
    modify (·.setQueue peer q)
    throw .linkFull

def receiveFrom (peer : PeerId) : LinkAction LocalLinks Bytes := do
  match ((← get).queue peer).takeFirst with
  | some (m, q) =>
    modify (·.setQueue peer q)
    return m.payload
  | none => throw (.noMessageFrom peer.toInt)

/-- The peer with the least id that has something queued. -/
def firstWaiting (l : LocalLinks) : Option PeerId :=
  (List.find? (fun entry => !entry.2.items.isEmpty) l.queues).map Prod.fst

def receive : LinkAction LocalLinks (PeerId × Bytes) := do
  match (← get).firstWaiting with
  | some peer => return (peer, ← receiveFrom peer)
  | none => throw .noMessage

instance : Outbox LocalLinks := ⟨send⟩

instance : Inbox LocalLinks := ⟨receive, receiveFrom⟩

/-- Closes the queue of `peer`. -/
def close (l : LocalLinks) (peer : PeerId) : LocalLinks :=
  l.setQueue peer (l.queue peer).close

/-- Empties the queue of `peer`. -/
def drain (l : LocalLinks) (peer : PeerId) : LocalLinks :=
  l.setQueue peer (l.queue peer).drained

end LocalLinks

end GraphRelay
