/-!
# Tables by peer

What is known about each peer, in ascending order of the peers' ids.
-/
namespace GraphRelay

/-- The logical id of one end of a link. -/
abbrev PeerId := Int32

abbrev PeerTable (α : Type) := List (PeerId × α)

namespace PeerTable

variable {α : Type}

/-- Enters `a` under `peer`, in place of what stood there. -/
def insert (peer : PeerId) (a : α) : PeerTable α → PeerTable α
  | [] => [(peer, a)]
  | (p, b) :: rest =>
    if peer < p then (peer, a) :: (p, b) :: rest
    else if peer = p then (peer, a) :: rest
    else (p, b) :: insert peer a rest

def find? (table : PeerTable α) (peer : PeerId) : Option α :=
  (List.find? (fun entry => entry.1 = peer) table).map Prod.snd

end PeerTable

end GraphRelay
