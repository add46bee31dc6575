import GraphRelay.FrozenGraph.Basic
import GraphRelay.Message.ArrayMeta
import GraphRelay.Transfer.Basic

/-!
# Transfer of node flows

A node flow is a sampled graph together with where its vertices and edges come from and how they
fall into layers. It travels as array metadata and seven vectors of ids: the four that describe the
sample, then the arrays of the graph's in-edges. Bare metadata of the kind `final` ends a stream.
-/
namespace GraphRelay

structure NodeFlow where
  graph : FrozenGraph
  /-- The parent vertex of each vertex. -/
  nodeMapping : Tensor
  /-- The parent edge of each edge. -/
  edgeMapping : Tensor
  /-- Where each layer of vertices starts. -/
  layerOffsets : Tensor
  /-- Where each block of edges starts. -/
  flowOffsets : Tensor
  deriving DecidableEq, Repr

/-- What a receiver of node flows meets. -/
inductive NodeFlowEvent where
  | flow (flow : NodeFlow)
  | ended
  deriving DecidableEq, Repr

namespace NodeFlow

/-- The number of vectors that a node flow travels as. -/
def arrayCount : Nat := 7

def requireIdVector (what : String) (t : Tensor) : Except Fault Unit :=
  if t.isIdVector then .ok () else .error (.idArray what)

/-- The seven vectors in the order they travel. -/
def arrays (f : NodeFlow) : Except Fault (List Tensor) := do
  requireIdVector "node_mapping" f.nodeMapping
  requireIdVector "edge_mapping" f.edgeMapping
  requireIdVector "layer_offsets" f.layerOffsets
  requireIdVector "flow_offsets" f.flowOffsets
  let rows := f.graph.view .incoming
  let offsets ← Tensor.ofIds rows.offsets
  let neighbors ← Tensor.ofIds rows.neighbors
  let edgeIds ← Tensor.ofIds rows.edgeIds
  pure [f.nodeMapping, f.edgeMapping, f.layerOffsets, f.flowOffsets, offsets, neighbors, edgeIds]

def transmission (f : NodeFlow) : Transmission :=
  .ofExcept do
    let tensors ← f.arrays
    let announcement ← (ArrayMeta.ofTensors .nodeFlow tensors).encode
    pure (announcement :: tensors.map Tensor.data)

def send {σ : Type} [Outbox σ] (peer : PeerId) (f : NodeFlow) : LinkAction σ Unit :=
  f.transmission.deliver peer

/-- The end of a stream of node flows. -/
def endTransmission : Transmission :=
  .ofExcept ((ArrayMeta.encode ⟨.final, []⟩).map fun payload => [payload])

def sendEnd {σ : Type} [Outbox σ] (peer : PeerId) : LinkAction σ Unit :=
  endTransmission.deliver peer

/-- The node flow that seven vectors make up. -/
def ofArrays (tensors : List Tensor) : Except Fault NodeFlow :=
  match tensors with
  | [nodeMapping, edgeMapping, layerOffsets, flowOffsets, offsets, neighbors, edgeIds] => do
    let offsets ← offsets.toIds
    let neighbors ← neighbors.toIds
    let edgeIds ← edgeIds.toIds
    let graph ← FrozenGraph.ofArrays offsets neighbors edgeIds .incoming none
    pure ⟨graph, nodeMapping, edgeMapping, layerOffsets, flowOffsets⟩
  | _ => .error (.flowArrays tensors.length arrayCount)

variable {σ : Type} [Inbox σ]

/-- The next vector of `peer`, announced with `shape`. -/
def receiveVector (peer : PeerId) (shape : List Int64) : LinkAction σ Tensor := do
  let payload ← Inbox.receiveFrom peer
  Tensor.receivedIds shape payload

/-- The next node flow or end of stream of any peer. -/
def receive : LinkAction σ (PeerId × NodeFlowEvent) := do
  let (peer, first) ← Inbox.receive
  let announced ← ArrayMeta.decode first
  match announced.kind with
  | .nodeFlow =>
    if announced.shapes.length ≠ arrayCount then
      throw (.flowArrays announced.shapes.length arrayCount)
    let tensors ← announced.shapes.mapM (receiveVector peer)
    let flow ← ofArrays tensors
    return (peer, .flow flow)
  | .final => return (peer, .ended)
  | other => throw (.unexpectedKind other.name)

end NodeFlow

end GraphRelay
