import GraphRelay.Adjacency.Induced
import GraphRelay.FrozenGraph.Lookup

/-!
# Subgraphs

A subgraph is a graph of its own, numbered from 0, with the parent id of each local vertex and of
each local edge. `inducedBy` keeps the edges among chosen vertices, `ofEdges` keeps chosen edges.
-/
namespace GraphRelay

structure Subgraph where
  graph : FrozenGraph
  /-- The parent id of each local vertex. -/
  vertices : List Nat
  /-- The parent id of each local edge. -/
  edges : List Nat
  deriving DecidableEq, Repr

namespace FrozenGraph

/-- The subgraph on `chosen`; it is cut out of the primary adjacency. -/
def inducedBy (g : FrozenGraph) (chosen : List Nat) : Except Fault Subgraph :=
  match g.primary.induced chosen with
  | .error f => .error f
  | .ok (a, parents) => .ok ⟨ofAdjacency a g.direction (some g.multigraph), chosen, parents⟩

/-- The edge that `id` names. Of several edges with one id the last in row order counts. -/
def edgeById? (edges : List Edge) (id : Nat) : Option Edge :=
  edges.reverse.find? fun e => e.id = id

/-- Looks chosen edges up; the first that is repeated or missing decides the fault. -/
def chooseEdges (edges : List Edge) (seen : List Nat) : List Nat → Except Fault (List Edge)
  | [] => .ok []
  | id :: rest =>
    if seen.contains id then .error (.repeatedEdge id)
    else match edgeById? edges id with
    | none => .error (.missingEdge id)
    | some e => (chooseEdges edges (id :: seen) rest).map (e :: ·)

/-- The subgraph of the edges `ids`; local edge `i` is `ids[i]`. With `keepVertices` vertices keep
their numbers, otherwise the endpoints are numbered as they turn up, all sources before all
destinations. -/
def ofEdges (g : FrozenGraph) (ids : List Nat) (keepVertices : Bool) : Except Fault Subgraph :=
  match chooseEdges g.edges [] ids with
  | .error f => .error f
  | .ok chosen =>
    let srcs := chosen.map Edge.src
    let dsts := chosen.map Edge.dst
    let vertices :=
      if keepVertices then List.range g.vertexCount else (srcs ++ dsts).eraseDups
    match ofCoordinates vertices.length (srcs.map vertices.idxOf) (dsts.map vertices.idxOf) none
      (some g.multigraph) with
    | .error f => .error f
    | .ok sub => .ok ⟨sub, vertices, ids⟩

end FrozenGraph

end GraphRelay
