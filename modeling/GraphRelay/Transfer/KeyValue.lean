import GraphRelay.Message.ArrayMeta
import GraphRelay.Message.KeyValue
import GraphRelay.Transfer.Basic

/-!
# Transfer of key/value messages

A key/value message travels as its header and, if it carries ids, array metadata, the ids and
possibly the values. The header is on its way before ids and values are looked at.
-/
namespace GraphRelay.KeyValue

/-- Values are single-precision numbers of at least one dimension. -/
def isValueArray (t : Tensor) : Bool := t.type = .float32 && t.rank ≠ 0

/-- The tensors behind the header, once they are fit to be sent. -/
def arrays (m : KeyValue) : Except Fault (List Tensor) :=
  match m.ids with
  | none => .ok []
  | some ids =>
    if !ids.isIdVector then .error (.idArray "id")
    else
      match m.values with
      | none => .ok [ids]
      | some values => if isValueArray values then .ok [ids, values] else .error .valueArray

def transmission (m : KeyValue) : Transmission :=
  match m.encodeHeader with
  | .error f => .refused f
  | .ok header =>
    if !m.kind.carriesIds then .ofPayloads [header]
    else
      let rest := do
        let tensors ← m.arrays
        let announcement ← (ArrayMeta.ofTensors m.kind tensors).encode
        pure (announcement :: tensors.map Tensor.data)
      match rest with
      | .ok payloads => .ofPayloads (header :: payloads)
      | .error f => ⟨[header], some f⟩

def send {σ : Type} [Outbox σ] (peer : PeerId) (m : KeyValue) : LinkAction σ Unit :=
  m.transmission.deliver peer

variable {σ : Type} [Inbox σ]

/-- The shapes that `peer` announces for a message of this kind. -/
def receiveShapes (peer : PeerId) (kind : MessageKind) : LinkAction σ (List (List Int64)) := do
  let announced ← ArrayMeta.decode (← Inbox.receiveFrom peer)
  if announced.kind ≠ kind then throw (.kindMismatch announced.kind.name kind.name)
  if announced.shapes.length ≠ kind.arrayCount then
    throw (.valueArrays kind.name announced.shapes.length kind.arrayCount)
  return announced.shapes

/-- The values of `peer`, announced with `shape`. -/
def receiveValues (peer : PeerId) (shape : List Int64) : LinkAction σ Tensor := do
  if shape.isEmpty then throw .scalarValues
  let payload ← Inbox.receiveFrom peer
  Tensor.received .float32 shape payload

/-- A message whose header has come from `peer`, completed by the tensors that follow. -/
def receiveTensors (peer : PeerId) (m : KeyValue) : LinkAction σ KeyValue := do
  let shapes ← receiveShapes peer m.kind
  let payload ← Inbox.receiveFrom peer
  let ids ← Tensor.receivedIds (shapes.headD []) payload
  match shapes[1]? with
  | none => return { m with ids := some ids }
  | some shape =>
    let values ← receiveValues peer shape
    return { m with ids := some ids, values := some values }

/-- The next message of any peer. -/
def receive : LinkAction σ (PeerId × KeyValue) := do
  let (peer, first) ← Inbox.receive
  let m ← decodeHeader first
  if m.kind.carriesIds then return (peer, ← receiveTensors peer m) else return (peer, m)

end GraphRelay.KeyValue
