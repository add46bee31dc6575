import GraphRelay.Adjacency.Induced
import GraphRelay.Graph.Basic

/-!
# Simple graphs

One edge per ordered pair: each row keeps the first arc to each neighbor, and the edges that remain
are numbered by source.
-/
namespace GraphRelay.Graph

def simple (g : Graph) : FrozenGraph :=
  let kept := (g.neighborRows .outgoing).map fun row => row.eraseDups.map fun v => ⟨v, 0⟩
  .ofAdjacency (.ofRows (Adjacency.numberFrom 0 kept)) .outgoing (some false)

end GraphRelay.Graph
