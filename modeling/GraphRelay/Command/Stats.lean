import GraphRelay.Command.Outline
import GraphRelay.FrozenGraph.Lookup

/-!
# Statistics

How many vertices and edges a graph has, and how its edges spread over the vertices.
-/
namespace GraphRelay

structure StatsReport where
  vertices : Nat
  edges : Nat
  /-- Whether two edges have the same endpoints. -/
  multigraph : Bool
  maxInDegree : Nat
  maxOutDegree : Nat
  /-- How many vertices have no edge. -/
  isolated : Nat
  deriving DecidableEq, Repr

namespace StatsReport

/-- Asks for the degrees of all vertices, in both directions. -/
def ofGraph (g : FrozenGraph) : Except Fault StatsReport := do
  let vertices := List.range g.vertexCount
  let ins ← g.degrees .incoming vertices
  let outs ← g.degrees .outgoing vertices
  let isolated := (ins.zip outs).countP fun (i, o) => i = 0 && o = 0
  pure ⟨g.vertexCount, g.edgeCount, g.multigraph, ins.max?.getD 0, outs.max?.getD 0, isolated⟩

def text (r : StatsReport) : String :=
  s!"vertices={r.vertices} edges={r.edges} multigraph={r.multigraph}\n" ++
    s!"max_in_degree={r.maxInDegree} max_out_degree={r.maxOutDegree} isolated={r.isolated}\n"

def outline (r : StatsReport) : Outline :=
  .members [("num_vertices", .nat r.vertices), ("num_edges", .nat r.edges),
    ("multigraph", .truth r.multigraph), ("max_in_degree", .nat r.maxInDegree),
    ("max_out_degree", .nat r.maxOutDegree), ("isolated_vertices", .nat r.isolated)]

end StatsReport

end GraphRelay
