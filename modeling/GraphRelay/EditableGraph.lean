import GraphRelay.FrozenGraph.Basic

/-!
# Editable graphs

A graph that vertices and edges can be added to. Besides the list of edges in id order it keeps, for
every vertex, the arcs that leave it and the arcs that enter it. A simple graph refuses an edge that
it has already.
-/
namespace GraphRelay

structure EditableGraph where
  /-- The out-arcs of each vertex, in the order they were added. -/
  outgoing : List (List Arc)
  /-- The in-arcs of each vertex, in the order they were added. -/
  incoming : List (List Arc)
  /-- Source and destination of each edge. -/
  pairs : List (Nat × Nat)
  multigraph : Bool
  deriving DecidableEq, Repr

namespace EditableGraph

def empty (multigraph : Bool) : EditableGraph := ⟨[], [], [], multigraph⟩

def vertexCount (g : EditableGraph) : Nat := g.outgoing.length

def edgeCount (g : EditableGraph) : Nat := g.pairs.length

/-- The graph with `n` more vertices, however many there are then. -/
def addVertices (g : EditableGraph) (n : Nat) : EditableGraph :=
  { g with
    outgoing := g.outgoing ++ List.replicate n []
    incoming := g.incoming ++ List.replicate n [] }

/-- Adds `n` vertices. The number of vertices is a machine word, and nothing comes of a sum that
outgrows it. -/
def grow (g : EditableGraph) (n : Nat) : Option EditableGraph :=
  if g.vertexCount + n < UInt64.size then some (g.addVertices n) else none

def checkVertex (g : EditableGraph) (v : Nat) : Except Fault Unit :=
  if v < g.vertexCount then .ok () else .error (.vertexOutside v g.vertexCount)

def outArcs (g : EditableGraph) (v : Nat) : List Arc := g.outgoing[v]?.getD []

def inArcs (g : EditableGraph) (v : Nat) : List Arc := g.incoming[v]?.getD []

def hasEdge (g : EditableGraph) (s d : Nat) : Bool := (g.outArcs s).any (·.neighbor = d)

/-- The graph with `s -> d` as its newest edge, without any check. -/
def pushEdge (g : EditableGraph) (s d : Nat) : EditableGraph :=
  { g with
    outgoing := g.outgoing.modify s (· ++ [⟨d, g.edgeCount⟩])
    incoming := g.incoming.modify d (· ++ [⟨s, g.edgeCount⟩])
    pairs := g.pairs ++ [(s, d)] }

/-- Adds `s -> d`; its id is the edge count before. -/
def addEdge (g : EditableGraph) (s d : Nat) : Except Fault EditableGraph :=
  match g.checkVertex s with
  | .error f => .error f
  | .ok () =>
    match g.checkVertex d with
    | .error f => .error f
    | .ok () =>
      if !g.multigraph && g.hasEdge s d then .error (.parallelEdge s d)
      else .ok (g.pushEdge s d)

/-- Adds edges until one is refused; what was added before stays. -/
def addPairs (g : EditableGraph) : List (Nat × Nat) → EditableGraph × Option Fault
  | [] => (g, none)
  | (s, d) :: rest =>
    match g.addEdge s d with
    | .error f => (g, some f)
    | .ok g' => g'.addPairs rest

/-- Adds one edge per source and destination. -/
def addEdges (g : EditableGraph) (srcs dsts : List Nat) : EditableGraph × Option Fault :=
  if srcs.length ≠ dsts.length then (g, some (.unpaired srcs.length dsts.length))
  else g.addPairs (srcs.zip dsts)

/-- A graph on `n` vertices from parallel lists of sources and destinations. -/
def ofCoordinates (n : Nat) (src dst : List Nat) (multigraph : Bool) :
    Except Fault EditableGraph :=
  if src.length ≠ dst.length then .error (.endpointCounts src.length dst.length)
  else match ((empty multigraph).addVertices n).addPairs (src.zip dst) with
  | (_, some f) => .error (.rejectedEdge f)
  | (g, none) => .ok g

def successors (g : EditableGraph) (v : Nat) : Except Fault (List Nat) :=
  (g.checkVertex v).map fun _ => (g.outArcs v).map Arc.neighbor

def predecessors (g : EditableGraph) (v : Nat) : Except Fault (List Nat) :=
  (g.checkVertex v).map fun _ => (g.inArcs v).map Arc.neighbor

def outEdgeIds (g : EditableGraph) (v : Nat) : Except Fault (List Nat) :=
  (g.checkVertex v).map fun _ => (g.outArcs v).map Arc.edge

def findEdge (g : EditableGraph) (e : Nat) : Except Fault (Nat × Nat) :=
  match g.pairs[e]? with
  | some p => .ok p
  | none => .error (.edgeOutside e g.edgeCount)

/-- The in-edges of the given vertices, vertex by vertex. -/
def inEdges (g : EditableGraph) (vs : List Nat) : Except Fault (List Edge) := do
  let found ← vs.mapM fun v => do
    g.checkVertex v
    pure ((g.inArcs v).map fun arc => (⟨arc.neighbor, v, arc.edge⟩ : Edge))
  pure found.flatten

/-- Every edge in id order. -/
def edges (g : EditableGraph) : List Edge :=
  g.pairs.zipIdx.map fun ((s, d), i) => ⟨s, d, i⟩

/-- A frozen copy with the same edge ids, indexed by source. -/
def freeze (g : EditableGraph) : Except Fault FrozenGraph :=
  FrozenGraph.ofCoordinates g.vertexCount (g.pairs.map Prod.fst) (g.pairs.map Prod.snd) none
    (some g.multigraph)

end EditableGraph

end GraphRelay
