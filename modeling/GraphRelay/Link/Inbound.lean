import GraphRelay.Link.Endpoint
import GraphRelay.Link.Frame
import GraphRelay.Link.Network
import GraphRelay.Link.Options
import GraphRelay.Queue.Basic
import GraphRelay.Transfer.Basic

/-!
# Receiving over sockets

The receiving end of the links of one peer. A link is accepted once its sender has introduced
itself; a reader then moves the frames of its stream into the link's queue until the stream ends or
fails. Receiving from any sender takes turns among the links.
-/
namespace GraphRelay

structure InboundLink where
  sender : PeerId
  /-- What the reader has not taken from the stream yet. -/
  reads : Frame.Reads
  /-- Closed when the reader is through. -/
  queue : Queue
  /-- Why the stream failed, if it did. -/
  failure : Option Fault
  deriving DecidableEq, Repr

namespace InboundLink

def finish (link : InboundLink) (failure : Option Fault) : InboundLink :=
  { link with reads := [], queue := link.queue.close, failure := failure }

/-- The reader's next step, if it has one that need not wait for room in the queue. -/
def advance (limit : Nat) (link : InboundLink) : Option InboundLink :=
  if link.queue.closed then none
  else
    match Frame.next limit link.reads with
    | .ended => some (link.finish none)
    | .failed f => some (link.finish (some f))
    | .frame payload rest =>
      match link.queue.push (.ofBytes payload) with
      | .accepted q => some { link with reads := rest, queue := q }
      | .refused f => some (link.finish (some f))
      | .waits => none

/-- The reader makes sure that something is queued, or else is through. -/
def await (limit : Nat) (link : InboundLink) : InboundLink :=
  if link.queue.items.isEmpty then (link.advance limit).getD link else link

/-- Why nothing comes from a drained link any more. -/
def closedFault (link : InboundLink) : Fault :=
  match link.failure with
  | some f => .senderFailed link.sender.toInt f.message
  | none => .senderClosed link.sender.toInt

end InboundLink

/-- What there is to accept: the stream of somebody who connected, or what the system could not do for
somebody and why. -/
inductive Arrival where
  | stream (reads : Frame.Reads)
  | failed (activity reason : String)
  deriving DecidableEq, Repr

/-- The id under which somebody introduces themselves, and what they send after it. -/
def Arrival.introduction : Arrival → Except Fault (PeerId × Frame.Reads)
  | .failed activity reason => .error (.system activity reason)
  | .stream reads =>
    let (id, reads) := Frame.fill 4 reads
    if id.length < 4 then .error (.system "handshake" "failed to fill whole buffer")
    else .ok (Wire.toInt32 id, reads)

structure Inbound where
  options : LinkOptions
  /-- Whether somebody listens. -/
  bound : Bool
  /-- Those who connected and were not accepted yet, in that order. -/
  backlog : List Arrival
  links : List InboundLink
  /-- Counts the looks for a message of any sender; each starts at another link. -/
  turn : Nat
  deriving DecidableEq, Repr

namespace Inbound

def start (options : LinkOptions) : Inbound := ⟨options, false, [], [], 0⟩

def bind (network : Network) (address : String) : LinkAction Inbound Unit := do
  let endpoint ← Endpoint.parse address
  let resolved ← endpoint.resolve
  match network.listenFailure resolved endpoint.port with
  | some reason => throw (.system "bind" reason)
  | none => modify fun r => { r with bound := true, backlog := [] }

/-- Somebody comes while somebody listens. -/
def expect (r : Inbound) (arrival : Arrival) : Inbound :=
  if r.bound then { r with backlog := r.backlog ++ [arrival] } else r

/-- Somebody connects and will have written `reads` when they close. -/
def arrive (r : Inbound) (reads : Frame.Reads) : Inbound := r.expect (.stream reads)

/-- The link of somebody who connected, once they have introduced themselves. -/
def greet (r : Inbound) (arrival : Arrival) : Except Fault InboundLink := do
  let (sender, reads) ← arrival.introduction
  if r.links.any (·.sender = sender) then .error (.repeatedSender sender.toInt)
  else .ok ⟨sender, reads, .empty r.options.queueCapacity, none⟩

/-- Accepts `n` links; nothing if it has to wait for more to connect. -/
def acceptLinks : Nat → Inbound → Option (Except Fault Unit × Inbound)
  | 0, r => some (.ok (), r)
  | n + 1, r =>
    match r.backlog with
    | [] => none
    | arrival :: rest =>
      let r := { r with backlog := rest }
      match r.greet arrival with
      | .error f => some (.error f, r)
      | .ok link => acceptLinks n { r with links := r.links ++ [link] }

def sortLinks (r : Inbound) : Inbound :=
  { r with links := r.links.mergeSort fun a b => decide (a.sender ≤ b.sender) }

/-- Accepts `n` links and puts all links in the order of their senders. After a refused link the
order is left as it is. -/
def accept (n : Nat) (r : Inbound) : Option (Except Fault Unit × Inbound) :=
  if !r.bound then some (.error .unbound, r)
  else
    match acceptLinks n r with
    | some (.ok (), r) => some (.ok (), r.sortLinks)
    | other => other

def senders (r : Inbound) : List PeerId := r.links.map InboundLink.sender

/-- What a look at the links finds. -/
inductive Look where
  | message (position : Nat) (payload : Bytes) (link : InboundLink)
  | fault (fault : Fault)
  | waits
  deriving DecidableEq, Repr

/-- Looks at links in order: the first message wins unless a failed link comes before it. -/
def look : List (Nat × InboundLink) → Look
  | [] => .fault .allSendersClosed
  | (i, link) :: rest =>
    match link.queue.takeFirst with
    | some (m, q) => .message i m.payload { link with queue := q }
    | none =>
      if !link.queue.isFinished then
        match look rest with
        | .fault .allSendersClosed => .waits
        | other => other
      else if link.failure.isSome then .fault link.closedFault
      else look rest

/-- The links with their positions, from position `k` on and around. -/
def linksFrom (r : Inbound) (k : Nat) : List (Nat × InboundLink) :=
  let positioned := r.links.zipIdx.map fun (link, i) => (i, link)
  positioned.drop k ++ positioned.take k

/-- Every reader whose queue is empty gets on. -/
def awaitAll (r : Inbound) : Inbound :=
  { r with links := r.links.map (InboundLink.await r.options.frameLimit) }

/-- The next payload of any sender. -/
def receive : LinkAction Inbound (PeerId × Bytes) := do
  let r ← get
  if r.links.isEmpty then throw .noSenders
  let first := r.turn % r.links.length
  let r := { r.awaitAll with turn := r.turn + 1 }
  set r
  match look (r.linksFrom first) with
  | .message i payload link =>
    set { r with links := r.links.set i link }
    return (link.sender, payload)
  | .fault f => throw f
  | .waits => throw .allSendersClosed

/-- The next payload of one sender. -/
def receiveFrom (peer : PeerId) : LinkAction Inbound Bytes := do
  let r ← get
  let some i := r.links.findIdx? (·.sender = peer) | throw (.senderMissing peer.toInt)
  let some link := r.links[i]? | throw (.senderMissing peer.toInt)
  let link := link.await r.options.frameLimit
  match link.queue.takeFirst with
  | some (m, q) =>
    set { r with links := r.links.set i { link with queue := q } }
    return m.payload
  | none =>
    set { r with links := r.links.set i link }
    throw link.closedFault

instance : Inbox Inbound := ⟨receive, receiveFrom⟩

/-- Receives at most `n` payloads: what came, and the fault after which nothing more did. -/
def receiveMany : Nat → Inbound → List (PeerId × Bytes) × Option Fault × Inbound
  | 0, r => ([], none, r)
  | n + 1, r =>
    match receive.run.run r with
    | (.ok message, r) =>
      let (messages, fault, r) := receiveMany n r
      (message :: messages, fault, r)
    | (.error f, r) => ([], some f, r)

/-- The number of bytes that readers have not taken yet. -/
def unread (r : Inbound) : Nat := (r.links.flatMap fun link => link.reads.flatten).length

def queued (r : Inbound) : Nat := (r.links.flatMap fun link => link.queue.items).length

/-- Receives until a fault: a frame takes at least eight bytes of its stream. -/
def receiveAll (r : Inbound) : List (PeerId × Bytes) × Option Fault × Inbound :=
  receiveMany (r.unread + r.queued + 1) r

/-- Closes every link and stops listening. -/
def finalize (r : Inbound) : Inbound := { r with bound := false, backlog := [], links := [] }

end Inbound

end GraphRelay
