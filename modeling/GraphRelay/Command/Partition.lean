import GraphRelay.Command.Outline
import GraphRelay.EdgeList
import GraphRelay.Graph.Halo

/-!
# Partitions

A graph cut into parts of consecutive vertices, as equal in size as can be, each with its halo.
-/
namespace GraphRelay

namespace Partition

/-- How many parts there are: not more than vertices. -/
def effectiveParts (vertices parts : Nat) : Nat := min parts (max vertices 1)

/-- The part of each vertex. -/
def assignment (vertices parts : Nat) : List Nat :=
  (List.range vertices).map fun v => v * parts / max vertices 1

/-- The halo of each part. The products of the assignment are to be machine words, the last of which is
the largest. -/
def halos (g : FrozenGraph) (parts hops : Nat) : Option (Except Fault (List Halo)) :=
  let parts := effectiveParts g.vertexCount parts
  if (g.vertexCount - 1) * parts < UInt64.size then
    some (g.haloParts (assignment g.vertexCount parts) hops)
  else none

/-- The edges of a halo between the vertices of the whole graph, by their ids in the halo. -/
def parentEdges (h : Halo) : List (Nat × Nat) :=
  h.sub.graph.edgesById.map fun e =>
    (h.sub.vertices[e.src]?.getD 0, h.sub.vertices[e.dst]?.getD 0)

/-- The file with the edges of a halo. -/
def edgeFile (csv : Csv.Codec) (h : Halo) : Bytes :=
  let edges := parentEdges h
  EdgeList.write csv (edges.map Prod.fst) (edges.map Prod.snd)

/-- The file for a part below a directory. -/
def filePath (directory : String) (part : Nat) : String :=
  pathBelow directory ("part-" ++ toString part ++ ".csv")

end Partition

structure PartReport where
  part : Nat
  innerVertices : Nat
  haloVertices : Nat
  edges : Nat
  innerEdges : Nat
  /-- Where the edges were written. -/
  output : Option String
  deriving DecidableEq, Repr

namespace PartReport

def ofHalo (part : Nat) (h : Halo) (output : Option String) : PartReport :=
  ⟨part, h.innerCount, h.outerCount, h.sub.graph.edgeCount, h.innerEdgeCount, output⟩

def text (r : PartReport) : String :=
  let target := r.output.elim "" (" -> " ++ ·)
  s!"part {r.part}: inner_nodes={r.innerVertices} halo_nodes={r.haloVertices} " ++
    s!"edges={r.edges} inner_edges={r.innerEdges}" ++ target ++ "\n"

def outline (r : PartReport) : Outline :=
  .members [("part", .nat r.part), ("inner_nodes", .nat r.innerVertices),
    ("halo_nodes", .nat r.haloVertices), ("edges", .nat r.edges),
    ("inner_edges", .nat r.innerEdges), ("output", r.output.elim .null .text)]

end PartReport

namespace Partition

/-- The reports on all parts; with a directory they name the files below it. -/
def reports (directory : Option String) (halos : List Halo) : List PartReport :=
  halos.zipIdx.map fun (h, part) => .ofHalo part h (directory.map fun d => filePath d part)

/-- The files for all parts below a directory. -/
def edgeFiles (csv : Csv.Codec) (directory : String) (halos : List Halo) : List (String × Bytes) :=
  halos.zipIdx.map fun (h, part) => (filePath directory part, edgeFile csv h)

end Partition

end GraphRelay
