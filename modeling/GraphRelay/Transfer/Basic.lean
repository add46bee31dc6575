import GraphRelay.Fault
import GraphRelay.PeerTable
import GraphRelay.Wire.Word

/-!
# Links

What a transfer needs of the links between peers: on the sending side a way to hand a payload to a
peer, on the receiving side a way to take the next payload of any peer or of one. A refused action
may still have changed the links. A transmission lists the payloads of one operation; it is
delivered payload by payload.
-/
namespace GraphRelay

/-- Something done on links of type `σ`. -/
abbrev LinkAction (σ α : Type) := ExceptT Fault (StateM σ) α

class Outbox (σ : Type) where
  send : PeerId → Bytes → LinkAction σ Unit

class Inbox (σ : Type) where
  /-- The next payload of any peer. -/
  receive : LinkAction σ (PeerId × Bytes)
  /-- The next payload of one peer. -/
  receiveFrom : PeerId → LinkAction σ Bytes

/-- The payloads of an operation, and why it stops after them if it does. -/
structure Transmission where
  payloads : List Bytes
  refusal : Option Fault
  deriving DecidableEq, Repr

namespace Transmission

def ofPayloads (payloads : List Bytes) : Transmission := ⟨payloads, none⟩

def refused (f : Fault) : Transmission := ⟨[], some f⟩

/-- The transmission of `payloads`, or the reason why there are none. -/
def ofExcept : Except Fault (List Bytes) → Transmission
  | .ok payloads => ofPayloads payloads
  | .error f => refused f

/-- Sends the payloads in order until a link refuses one. -/
def deliver {σ : Type} [Outbox σ] (t : Transmission) (peer : PeerId) : LinkAction σ Unit := do
  for payload in t.payloads do
    Outbox.send peer payload
  match t.refusal with
  | some f => throw f
  | none => pure ()

end Transmission

end GraphRelay
