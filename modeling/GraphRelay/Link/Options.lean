import GraphRelay.Settings.Datum

/-!
# Link options

How links are set up: how many bytes each may hold back, whether small packets are sent at once, and
how long a frame may be.
-/
namespace GraphRelay

structure LinkOptions where
  /-- Bytes that each link may hold queued. -/
  queueCapacity : Nat
  noDelay : Bool
  /-- The longest frame a receiver is asked to take. -/
  maxFrame : Option Nat
  deriving DecidableEq, Repr

namespace LinkOptions

def default : LinkOptions := ⟨67108864, true, none⟩

/-- At least one byte is kept. -/
def withQueueCapacity (o : LinkOptions) (bytes : Nat) : LinkOptions :=
  { o with queueCapacity := max bytes 1 }

def withNoDelay (o : LinkOptions) (enabled : Bool) : LinkOptions := { o with noDelay := enabled }

def withMaxFrame (o : LinkOptions) (bytes : Nat) : LinkOptions := { o with maxFrame := some bytes }

/-- The longest frame a receiver takes: what is asked for, but never more than the queue holds. -/
def frameLimit (o : LinkOptions) : Nat :=
  match o.maxFrame with
  | some bytes => min bytes o.queueCapacity
  | none => o.queueCapacity

/-- Options from the data of their three fields, each of which may be absent. -/
def ofFields (queueCapacity noDelay maxFrame : Option Datum) : Option LinkOptions := do
  let queueCapacity ← Datum.orElse Datum.toCount? default.queueCapacity queueCapacity
  let noDelay ← Datum.orElse Datum.toTruth? default.noDelay noDelay
  let maxFrame ← Datum.orElse Datum.toOptionalCount? default.maxFrame maxFrame
  pure ⟨queueCapacity, noDelay, maxFrame⟩

/-- Options from named fields, or from a list of fields in order. -/
def ofDatum? (d : Datum) : Option LinkOptions :=
  match d with
  | .list items =>
    if 3 < items.length then none else ofFields items[0]? items[1]? items[2]?
  | _ => do
    let entries ← d.entries?
    ofFields (entries.lookup "queue_capacity") (entries.lookup "tcp_nodelay")
      (entries.lookup "max_frame_len")

end LinkOptions

end GraphRelay
