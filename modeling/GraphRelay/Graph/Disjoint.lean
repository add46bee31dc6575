import GraphRelay.Graph.Basic

/-!
# Disjoint unions and their parts

A union puts graphs of one kind side by side: the vertices and edge ids of each follow those of the
graphs before it. `partitionBySizes` splits a graph into contiguous ranges of vertices and succeeds
on what has the shape of a union.
-/
namespace GraphRelay

namespace Graph

/-- The rows of an adjacency moved behind `vertices` vertices and `edges` edges. -/
def shiftRows (vertices edges : Nat) (rows : List (List Arc)) : List (List Arc) :=
  rows.map (·.map fun arc => ⟨arc.neighbor + vertices, arc.edge + edges⟩)

/-- The rows of all adjacencies, each moved behind the ones before it. -/
def joinRows (vertices edges : Nat) : List Adjacency → List (List Arc)
  | [] => []
  | a :: rest =>
    shiftRows vertices edges a.rows
      ++ joinRows (vertices + a.vertexCount) (edges + a.edgeCount) rest

def unionFrozen (graphs : List FrozenGraph) : FrozenGraph :=
  .ofAdjacency (.ofRows (joinRows 0 0 (graphs.map (·.view .incoming)))) .incoming
    (some (graphs.any FrozenGraph.multigraph))

/-- Appends the vertices and edges of `g`. -/
def appendEditable (whole g : EditableGraph) : Except Fault EditableGraph :=
  let offset := whole.vertexCount
  match (whole.addVertices g.vertexCount).addPairs
      (g.pairs.map fun (s, d) => (s + offset, d + offset)) with
  | (_, some f) => .error f
  | (joined, none) => .ok joined

def unionEditable (graphs : List EditableGraph) : Except Fault EditableGraph :=
  graphs.foldlM appendEditable (EditableGraph.empty (graphs.any EditableGraph.multigraph))

/-- The union of graphs of one kind. -/
def disjointUnion (graphs : List Graph) : Except Fault Graph :=
  match graphs with
  | [] => .error .emptyUnion
  | first :: _ =>
    match graphs.zipIdx.find? (fun (g, _) => g.variant ≠ first.variant) with
    | some (g, i) => .error (.mixedUnion first.variant i g.variant)
    | none =>
      match first with
      | editable _ => do
        let parts ← graphs.mapM (requireEditable "disjoint_union")
        (unionEditable parts).map .editable
      | frozen _ => do
        let parts ← graphs.mapM (requireFrozen "disjoint_union")
        pure (.frozen (unionFrozen parts))

/-- An arc of part `part` in the part's own numbers. The part owns `size` vertices from `start` and
`edges` edge ids from `first`. -/
def localArc (part start size first edges : Nat) (arc : Arc) : Except Fault Arc :=
  if arc.neighbor < start || start + size ≤ arc.neighbor then .error (.crossingEdge arc.edge part)
  else if arc.edge < first || first + edges ≤ arc.edge then
    .error (.foreignEdgeId arc.edge part first (first + edges))
  else .ok ⟨arc.neighbor - start, arc.edge - first⟩

/-- Cuts the rows into parts. `part`, `start` and `first` number the next part, vertex and edge. -/
def splitFrozen (part start first : Nat) (rows : List (List Arc)) :
    List Nat → Except Fault (List FrozenGraph)
  | [] => .ok []
  | size :: sizes => do
    let own := rows.take size
    let edges := own.flatten.length
    let moved ← own.mapM (·.mapM (localArc part start size first edges))
    let rest ← splitFrozen (part + 1) (start + size) (first + edges) (rows.drop size) sizes
    pure (.ofAdjacency (.ofRows moved) .incoming none :: rest)

/-- Adds the edges of part `part` to `g`, renumbered from `start`. -/
def takePairs (part start size : Nat) (g : EditableGraph) :
    List ((Nat × Nat) × Nat) → Except Fault EditableGraph
  | [] => .ok g
  | ((s, d), i) :: rest =>
    if s < start || start + size ≤ s || d < start || start + size ≤ d then
      .error (.crossingEdge i part)
    else do
      let g' ← g.addEdge (s - start) (d - start)
      takePairs part start size g' rest

/-- Cuts rows and edges into parts: a part owns as many of the next edges as leave its vertices. -/
def splitEditable (multigraph : Bool) (part start : Nat) (rows : List (List Arc))
    (pairs : List ((Nat × Nat) × Nat)) : List Nat → Except Fault (List EditableGraph)
  | [] => .ok []
  | size :: sizes => do
    let edges := (rows.take size).flatten.length
    let own ← takePairs part start size ((EditableGraph.empty multigraph).addVertices size)
      (pairs.take edges)
    let rest ← splitEditable multigraph (part + 1) (start + size) (rows.drop size)
      (pairs.drop edges) sizes
    pure (own :: rest)

/-- The number of vertices in parts of the given sizes. -/
def total (sizes : List Nat) : Nat := sizes.foldr (· + ·) 0

/-- Splits a graph into ranges of vertices of the given sizes. -/
def partitionBySizes (g : Graph) (sizes : List Nat) : Except Fault (List Graph) :=
  if total sizes ≠ g.vertexCount then .error (.sizeSum (total sizes) g.vertexCount)
  else match g with
  | editable g =>
    (splitEditable g.multigraph 0 0 g.outgoing g.pairs.zipIdx sizes).map (·.map .editable)
  | frozen g => (splitFrozen 0 0 0 (g.view .incoming).rows sizes).map (·.map .frozen)

def sizesReads (g : Graph) (sizes : List Nat) : List Direction :=
  if total sizes ≠ g.vertexCount then [] else [.incoming]

/-- Splits a graph into `parts` ranges of one size. -/
def partitionByCount (g : Graph) (parts : Nat) : Except Fault (List Graph) :=
  if parts = 0 || g.vertexCount % parts ≠ 0 then .error (.unevenParts parts g.vertexCount)
  else g.partitionBySizes (List.replicate parts (g.vertexCount / parts))

def countReads (g : Graph) (parts : Nat) : List Direction :=
  if parts = 0 || g.vertexCount % parts ≠ 0 then [] else [.incoming]

end Graph

end GraphRelay
