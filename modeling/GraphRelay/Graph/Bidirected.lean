import GraphRelay.Graph.Basic

/-!
# Bidirected graphs

Each pair of vertices gets as many edges in both directions as the graph has in the fuller of the
two; a self-loop counts once. The editable result lists its edges by unordered pair, the frozen one
by destination, predecessors before successors.
-/
namespace GraphRelay.Graph

/-- Source and destination of each edge, by source in row order. -/
def pairs (g : Graph) : List (Nat × Nat) :=
  (g.neighborRows .outgoing).zipIdx.flatMap fun (row, u) => row.map fun v => (u, v)

/-- The number of edges that either direction between `u` and `v` gets. -/
def bothWays (pairs : List (Nat × Nat)) (u v : Nat) : Nat :=
  max (pairs.count (u, v)) (pairs.count (v, u))

def pairLE (x y : Nat × Nat) : Bool :=
  x.1 < y.1 || (x.1 == y.1 && x.2 ≤ y.2)

/-- The unordered pairs that have an edge, smaller endpoint first, in ascending order. -/
def unorderedPairs (pairs : List (Nat × Nat)) : List (Nat × Nat) :=
  ((pairs.map fun (u, v) => (min u v, max u v)).mergeSort pairLE).eraseDups

/-- The edges `u -> v` and, for two different vertices, the edges back. -/
def bothWaysPairs (pairs : List (Nat × Nat)) (u v : Nat) : List (Nat × Nat) :=
  let k := bothWays pairs u v
  List.replicate k (u, v) ++ if u = v then [] else List.replicate k (v, u)

def bidirectedEditable (g : Graph) : Except Fault EditableGraph :=
  let pairs := g.pairs
  let start := (EditableGraph.empty g.multigraph).addVertices g.vertexCount
  match start.addPairs ((unorderedPairs pairs).flatMap fun (u, v) => bothWaysPairs pairs u v) with
  | (_, some f) => .error f
  | (b, none) => .ok b

/-- The edges into `u`, one block per distinct neighbor. -/
def bothWaysInto (pairs : List (Nat × Nat)) (u : Nat) (preds succs : List Nat) : List (Nat × Nat) :=
  (preds ++ succs).eraseDups.flatMap fun v => List.replicate (bothWays pairs u v) (v, u)

def bidirectedFrozen (g : Graph) : Except Fault FrozenGraph :=
  let pairs := g.pairs
  let rows := (g.neighborRows .incoming).zip (g.neighborRows .outgoing)
  let found := rows.zipIdx.flatMap fun ((preds, succs), u) => bothWaysInto pairs u preds succs
  FrozenGraph.ofCoordinates g.vertexCount (found.map Prod.fst) (found.map Prod.snd) none
    (some g.multigraph)

end GraphRelay.Graph
