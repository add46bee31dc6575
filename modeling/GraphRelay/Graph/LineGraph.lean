import GraphRelay.Graph.Basic

/-!
# Line graphs

The vertices of the line graph are the edges of the graph; edge `i` leads to every edge that leaves
its destination. Without `backtracking` the way straight back to its source is left out.
-/
namespace GraphRelay.EditableGraph

/-- The edges that edge `i`, from `u` to `v`, leads to. -/
def followers (g : EditableGraph) (backtracking : Bool) (i u v : Nat) : List (Nat × Nat) :=
  ((g.outArcs v).filter fun arc => backtracking || arc.neighbor ≠ u).map fun arc => (i, arc.edge)

def lineGraph (g : EditableGraph) (backtracking : Bool) : Except Fault EditableGraph :=
  let start := (empty false).addVertices g.edgeCount
  let found := g.pairs.zipIdx.flatMap fun ((u, v), i) => g.followers backtracking i u v
  match start.addPairs found with
  | (_, some f) => .error f
  | (l, none) => .ok l

end GraphRelay.EditableGraph

namespace GraphRelay.Graph

def lineGraph (g : Graph) (backtracking : Bool) : Except Fault EditableGraph := do
  let editable ← g.requireEditable "line_graph"
  editable.lineGraph backtracking

end GraphRelay.Graph
