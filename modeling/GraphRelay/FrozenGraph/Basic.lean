import GraphRelay.Adjacency.Build
import GraphRelay.Direction

/-!
# Frozen graphs

A graph that never changes its edges, held as the adjacency of one direction. The adjacency of the
other direction is derived when an operation first reads it and kept from then on: `view` is what a
reader sees, `touch` is the graph after a reader has looked.
-/
namespace GraphRelay

/-- An edge by its endpoints and id. -/
structure Edge where
  src : Nat
  dst : Nat
  id : Nat
  deriving DecidableEq, Repr

/-- The edge that an entry of the adjacency of direction `d` stands for. -/
def Entry.edgeOf (d : Direction) (e : Entry) : Edge :=
  match d with
  | .outgoing => ⟨e.row, e.col, e.edge⟩
  | .incoming => ⟨e.col, e.row, e.edge⟩

structure FrozenGraph where
  primary : Adjacency
  /-- The direction of `primary`. -/
  direction : Direction
  /-- The other direction, once some operation has read it. -/
  derived : Option Adjacency
  /-- Whether parallel edges may exist. -/
  multigraph : Bool
  idBits : Nat
  deriving DecidableEq, Repr

namespace FrozenGraph

/-- Without `multigraph` the flag says whether parallel edges do exist. -/
def ofAdjacency (a : Adjacency) (d : Direction) (multigraph : Option Bool) : FrozenGraph :=
  ⟨a, d, none, multigraph.getD a.hasRepeat, 64⟩

/-- A graph on `n` vertices from parallel lists of sources and destinations. -/
def ofCoordinates (n : Nat) (src dst : List Nat) (ids : Option (List Nat))
    (multigraph : Option Bool) : Except Fault FrozenGraph :=
  match Adjacency.ofCoordinates n src dst ids with
  | .error f => .error f
  | .ok a => .ok (ofAdjacency a .outgoing multigraph)

/-- The same where the places of an array are numbered by machine words. Rows are counted in one place
more than there are vertices, and without a number for it nothing comes of coordinates in order. -/
def build (n : Nat) (src dst : List Nat) (ids : Option (List Nat)) (multigraph : Option Bool) :
    Option (Except Fault FrozenGraph) :=
  match Adjacency.entriesWithin n src dst ids with
  | .error f => some (.error f)
  | .ok entries =>
    if n + 1 < UInt64.size then
      some (.ok (ofAdjacency (.ofEntries n entries) .outgoing multigraph))
    else none

/-- A graph from the compressed arrays of direction `d`. -/
def ofArrays (offsets neighbors edgeIds : List Nat) (d : Direction) (multigraph : Option Bool) :
    Except Fault FrozenGraph :=
  match Adjacency.ofArrays offsets neighbors edgeIds with
  | .error f => .error f
  | .ok a => .ok (ofAdjacency a d multigraph)

def vertexCount (g : FrozenGraph) : Nat := g.primary.vertexCount

def edgeCount (g : FrozenGraph) : Nat := g.primary.edgeCount

/-- The adjacency of direction `d` if it exists already. -/
def cached (g : FrozenGraph) (d : Direction) : Option Adjacency :=
  if d = g.direction then some g.primary else g.derived

/-- The adjacency of direction `d`, derived if need be. -/
def view (g : FrozenGraph) (d : Direction) : Adjacency :=
  (g.cached d).getD g.primary.transpose

/-- The graph after the adjacency of direction `d` was read. -/
def touch (g : FrozenGraph) (d : Direction) : FrozenGraph :=
  if d = g.direction then g else { g with derived := some (g.view d) }

/-- Sorts the rows of every adjacency that exists. -/
def sort (g : FrozenGraph) : FrozenGraph :=
  { g with primary := g.primary.sort, derived := g.derived.map Adjacency.sort }

/-- Whether every adjacency that exists has ascending rows. -/
def isSorted (g : FrozenGraph) : Bool :=
  g.primary.sorted && g.derived.all Adjacency.sorted

/-- Every edge flipped: the adjacencies stay and change their meaning. -/
def reverse (g : FrozenGraph) : FrozenGraph :=
  { g with direction := g.direction.flip }

/-- The largest id that fits into `bits`. -/
def widthLimit (bits : Nat) : Option Nat :=
  if bits = 32 then some (UInt32.size - 1)
  else if bits = 64 then some (UInt64.size - 1)
  else none

/-- A copy marked as having ids of `bits` bits, when all its ids fit. -/
def withIdBits (g : FrozenGraph) (bits : Nat) : Except Fault FrozenGraph :=
  match widthLimit bits with
  | none => .error (.idWidth bits)
  | some limit =>
    if limit < g.vertexCount || limit < g.edgeCount || g.primary.edgeIds.any (limit < ·) then
      .error (.idsTooWide bits)
    else .ok { g with idBits := bits }

/-- One line that sums the graph up. -/
def describe (g : FrozenGraph) : String :=
  "ImmutableGraph \x7b num_vertices: " ++ toString g.vertexCount
    ++ ", num_edges: " ++ toString g.edgeCount
    ++ ", primary_dir: " ++ g.direction.caption
    ++ ", derived_cached: " ++ toString g.derived.isSome
    ++ ", multigraph: " ++ toString g.multigraph
    ++ ", num_bits: " ++ toString g.idBits ++ " \x7d"

end FrozenGraph

end GraphRelay
