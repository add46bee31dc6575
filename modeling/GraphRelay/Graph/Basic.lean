import GraphRelay.EditableGraph
import GraphRelay.FrozenGraph.Lookup

/-!
# Graphs of either kind

What operations need of a graph, whether it is frozen or can still be edited.
-/
namespace GraphRelay

inductive Graph where
  | editable (g : EditableGraph)
  | frozen (g : FrozenGraph)
  deriving DecidableEq, Repr

namespace Graph

def variant : Graph → String
  | editable _ => "mutable"
  | frozen _ => "immutable"

def isFrozen : Graph → Bool
  | editable _ => false
  | frozen _ => true

def vertexCount : Graph → Nat
  | editable g => g.vertexCount
  | frozen g => g.vertexCount

def edgeCount : Graph → Nat
  | editable g => g.edgeCount
  | frozen g => g.edgeCount

def multigraph : Graph → Bool
  | editable g => g.multigraph
  | frozen g => g.multigraph

/-- The frozen graph, or the fault that `operation` cannot work on an editable one. -/
def requireFrozen (operation : String) : Graph → Except Fault FrozenGraph
  | frozen g => .ok g
  | editable _ => .error (.needsImmutable operation)

def requireEditable (operation : String) : Graph → Except Fault EditableGraph
  | editable g => .ok g
  | frozen _ => .error (.needsMutable operation)

def freeze : Graph → Except Fault FrozenGraph
  | editable g => g.freeze
  | frozen g => .ok g

/-- The destinations of the out-edges of `v`, parallel edges repeated. -/
def successors (g : Graph) (v : Nat) : Except Fault (List Nat) :=
  match g with
  | editable g => g.successors v
  | frozen g => g.successors v 1

/-- The sources of the in-edges of `v`, parallel edges repeated. -/
def predecessors (g : Graph) (v : Nat) : Except Fault (List Nat) :=
  match g with
  | editable g => g.predecessors v
  | frozen g => g.predecessors v 1

def inEdges (g : Graph) (vs : List Nat) : Except Fault (List Edge) :=
  match g with
  | editable g => g.inEdges vs
  | frozen g => g.inEdges vs

def arcRows (g : Graph) (d : Direction) : List (List Arc) :=
  match g, d with
  | editable g, .outgoing => g.outgoing
  | editable g, .incoming => g.incoming
  | frozen g, d => (g.view d).rows

/-- For each vertex in turn its successors (`outgoing`) or predecessors (`incoming`). -/
def neighborRows (g : Graph) (d : Direction) : List (List Nat) :=
  (g.arcRows d).map (·.map Arc.neighbor)

/-- The graph after the given directions were read. Only a frozen graph can tell. -/
def after (g : Graph) (reads : List Direction) : Graph :=
  match g with
  | editable g => .editable g
  | frozen g => .frozen (reads.foldl FrozenGraph.touch g)

/-- The directions that reading one row of a vertex reads: none when there is no such vertex. -/
def rowReads (g : Graph) (d : Direction) (v : Nat) : List Direction :=
  if v < g.vertexCount then [d] else []

/-- The directions that going through all rows reads: none when there are no vertices. -/
def sweepReads (g : Graph) (ds : List Direction) : List Direction :=
  if g.vertexCount = 0 then [] else ds

end Graph

end GraphRelay
