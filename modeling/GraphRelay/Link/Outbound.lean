import GraphRelay.Link.Endpoint
import GraphRelay.Link.Frame
import GraphRelay.Link.Network
import GraphRelay.Link.Options
import GraphRelay.Queue.Basic
import GraphRelay.Transfer.Basic

/-!
# Sending over sockets

The sending end of the links of one peer. Receivers are registered under their ids, then all links
are opened at once. Each connection starts with the sender's id; the payloads sent on it wait in its
queue until its writer has written them as frames. When the links are closed the writers finish
their queues and end the streams.
-/
namespace GraphRelay

/-- One connection that was opened, from its first byte on. -/
structure Connection where
  endpoint : Endpoint
  /-- Accepted but not yet written. -/
  queue : Queue
  written : Bytes
  /-- Whether the stream was ended. -/
  ended : Bool
  deriving DecidableEq, Repr

namespace Connection

/-- A connection on which the sender has introduced itself. -/
def start (endpoint : Endpoint) (sender : PeerId) (capacity : Nat) : Connection :=
  ⟨endpoint, .empty capacity, Wire.int32 sender, false⟩

/-- The writer writes everything that is queued. -/
def flush (c : Connection) : Connection :=
  { c with queue := c.queue.drained, written := c.written ++ Frame.encodeAll c.queue.payloads }

/-- The writer writes what is queued and ends the stream. -/
def close (c : Connection) : Connection :=
  let c := { c with queue := c.queue.close }.flush
  { c with ended := true }

/-- The writer writes the oldest payload in the queue. -/
def writeNext (c : Connection) : Option Connection :=
  match c.queue.takeFirst with
  | some (m, q) => some { c with queue := q, written := c.written ++ Frame.encode m.payload }
  | none => none

/-- The writer gives up after the system took `taken`, and drops what is queued. -/
def abandon (taken : Bytes) (c : Connection) : Connection :=
  { c with queue := c.queue.close.drained, written := c.written ++ taken, ended := true }

end Connection

structure Outbound where
  /-- The id under which this peer introduces itself. -/
  sender : PeerId
  options : LinkOptions
  /-- The receivers to connect to. -/
  registered : PeerTable Endpoint
  /-- Every connection ever opened, oldest first. -/
  connections : List Connection
  /-- Which connection leads to which receiver at present. -/
  links : PeerTable Nat
  /-- Why the writers of connections gave up. -/
  faults : List (Nat × Fault)
  deriving DecidableEq, Repr

namespace Outbound

def start (sender : PeerId) (options : LinkOptions) : Outbound := ⟨sender, options, [], [], [], []⟩

/-- Registers a receiver. One that is registered already gets the new address and is refused. -/
def register (address : String) (peer : PeerId) : LinkAction Outbound Unit := do
  let o ← get
  if !o.links.isEmpty then throw .lateReceiver
  let endpoint ← Endpoint.parse address
  set { o with registered := o.registered.insert peer endpoint }
  if (o.registered.find? peer).isSome then throw (.repeatedReceiver peer.toInt)

/-- Closes every link. -/
def closeLinks (o : Outbound) : Outbound :=
  let close (cs : List Connection) (link : PeerId × Nat) : List Connection :=
    cs.modify link.2 Connection.close
  { o with connections := o.links.foldl close o.connections, links := [] }

/-- Opens a link, in place of an earlier one to the same receiver. -/
def openLink (network : Network) (peer : PeerId) (endpoint : Endpoint) (o : Outbound) :
    Except Fault Outbound := do
  let address ← endpoint.resolve
  match network.connectFailure address endpoint.port, network.setupFailure address endpoint.port with
  | some reason, _ => .error (.system "connect" reason)
  | none, some (activity, reason) => .error (.system activity reason)
  | none, none =>
    .ok { o with
      connections := o.connections ++ [.start endpoint o.sender o.options.queueCapacity]
      links := o.links.insert peer o.connections.length }

/-- Opens links in order, each over the network as it is then; a link that cannot be opened takes all
others with it. -/
def openAll (network : PeerId → Network) : List (PeerId × Endpoint) → LinkAction Outbound Unit
  | [] => pure ()
  | (peer, endpoint) :: rest => do
    let o ← get
    match openLink (network peer) peer endpoint o with
    | .ok o =>
      set o
      openAll network rest
    | .error f =>
      set o.closeLinks
      throw f

/-- Opens a link to every registered receiver, over a network that may change from one to the next. -/
def connectOver (network : PeerId → Network) : LinkAction Outbound Unit := do
  let o ← get
  if o.registered.isEmpty then throw .noReceivers
  openAll network o.registered

def connect (network : Network) : LinkAction Outbound Unit := connectOver fun _ => network

/-- The connection that leads to a receiver at present. -/
def current? (o : Outbound) (peer : PeerId) : Option (Nat × Connection) := do
  let i ← o.links.find? peer
  let c ← o.connections[i]?
  pure (i, c)

/-- Queues a payload; if the queue is full, after its writer has written what was in it. -/
def send (peer : PeerId) (payload : Bytes) : LinkAction Outbound Unit := do
  let o ← get
  let some (i, c) := o.current? peer | throw (.receiverMissing peer.toInt)
  let put (c : Connection) : Outbound := { o with connections := o.connections.set i c }
  match c.queue.push (.ofBytes payload) with
  | .accepted q => set (put { c with queue := q })
  | .refused .queueClosed => throw (.receiverClosed peer.toInt)
  | .refused f => throw f
  | .waits =>
    let c := c.flush
    match c.queue.push (.ofBytes payload) with
    | .accepted q => set (put { c with queue := q })
    | _ => throw (.receiverClosed peer.toInt)

instance : Outbox Outbound := ⟨send⟩

/-- Closes every link and forgets the receivers. -/
def finalize (o : Outbound) : Outbound := { o.closeLinks with registered := [] }

/-- What finalizing complains about: the first link whose writer gave up. -/
def finalFault (o : Outbound) : Option Fault := o.links.findSome? fun link => o.faults.lookup link.2

/-- What was written to each connection for an endpoint once all writers have caught up. -/
def writtenTo (o : Outbound) (endpoint : Endpoint) : List Bytes :=
  (o.connections.filter (·.endpoint = endpoint)).map fun c => c.flush.written

end Outbound

end GraphRelay
