import GraphRelay.Wire.Word

/-!
# Messages

A payload on its way from one peer to another. Whoever sends a message can ask to be told when
nobody holds its payload any more; the token of that request travels with the message.
-/
namespace GraphRelay

structure Message where
  payload : Bytes
  /-- The token to announce when the message is given up. -/
  release : Option Nat
  deriving DecidableEq, Repr

namespace Message

def ofBytes (payload : Bytes) : Message := ⟨payload, none⟩

def length (m : Message) : Nat := m.payload.length

/-- One line that sums the message up. -/
def describe (m : Message) : String :=
  "Message \x7b len: " ++ toString m.length ++ ", has_release: " ++ toString m.release.isSome
    ++ " \x7d"

end Message

end GraphRelay
