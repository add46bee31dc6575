import GraphRelay.FrozenGraph.Lookup

/-!
# Queries

The questions a frozen graph answers, as data. `Query.answer` gives the answer, `Query.reads` the
directions that answering it reads, and `Query.after` the graph it leaves behind. A run of queries
and changes of the cache is a list of `Access`es.
-/
namespace GraphRelay.FrozenGraph

inductive Query where
  | successors (v radius : Nat)
  | predecessors (v radius : Nat)
  | hasVertex (v : Nat)
  | edgeIds (s d : Nat)
  | hasEdge (s d : Nat)
  | edgesBetween (srcs dsts : List Nat)
  | inEdges (vs : List Nat)
  | outEdges (vs : List Nat)
  | degrees (d : Direction) (vs : List Nat)
  | edges (byId : Bool)
  | view (d : Direction)
  | adjacency (transposed : Bool) (layout : Layout)
  deriving DecidableEq, Repr

inductive Answer where
  | vertices (vs : List Nat)
  | ids (ids : List Nat)
  | truth (b : Bool)
  | edges (es : List Edge)
  | counts (ns : List Nat)
  | adjacency (a : Adjacency)
  | entries (es : List Entry)
  deriving DecidableEq, Repr

namespace Query

def answer (g : FrozenGraph) : Query → Except Fault Answer
  | successors v r => (g.successors v r).map .vertices
  | predecessors v r => (g.predecessors v r).map .vertices
  | hasVertex v => .ok (.truth (g.hasVertex v))
  | edgeIds s d => (g.edgeIdsBetween s d).map .ids
  | hasEdge s d => (g.hasEdge s d).map .truth
  | edgesBetween ss ds => (g.edgesBetween ss ds).map .edges
  | inEdges vs => (g.inEdges vs).map .edges
  | outEdges vs => (g.outEdges vs).map .edges
  | degrees d vs => (g.degrees d vs).map .counts
  | edges byId => .ok (.edges (if byId then g.edgesById else g.edges))
  | view d => .ok (.adjacency (g.view d))
  | adjacency t .rows => .ok (.adjacency (g.adjacency t))
  | adjacency t .coordinates => .ok (.entries (g.adjacency t).entries)

/-- The directions that are read to answer. Walks and degrees check the vertex first, row queries
read first; looking an edge up never derives an adjacency. -/
def reads (g : FrozenGraph) : Query → List Direction
  | successors v r => if g.hasVertex v && r ≠ 0 then [.outgoing] else []
  | predecessors v r => if g.hasVertex v && r ≠ 0 then [.incoming] else []
  | hasVertex _ | edgeIds .. | hasEdge .. | edgesBetween .. => []
  | inEdges _ => [.incoming]
  | outEdges _ => [.outgoing]
  | degrees d vs => if vs.head?.any g.hasVertex then [d] else []
  | edges _ => [.outgoing]
  | view d => [d]
  | adjacency t _ => [if t then .outgoing else .incoming]

def after (g : FrozenGraph) (q : Query) : FrozenGraph := (q.reads g).foldl touch g

end Query

/-- What can happen to a frozen graph that somebody holds. -/
inductive Access where
  | query (q : Query)
  | sort
  | clone
  | reverse
  | withIdBits (bits : Nat)
  deriving DecidableEq, Repr

/-- The graph after an access. A width that does not fit leaves the graph as it was. -/
def Access.after (g : FrozenGraph) : Access → FrozenGraph
  | .query q => q.after g
  | .sort => g.sort
  | .clone => g
  | .reverse => g.reverse
  | .withIdBits bits => (g.withIdBits bits).toOption.getD g

def run (g : FrozenGraph) (accesses : List Access) : FrozenGraph :=
  accesses.foldl Access.after g

end GraphRelay.FrozenGraph
