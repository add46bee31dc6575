import GraphRelay.Bisect
import GraphRelay.Fault

/-!
# Adjacency

One direction of a graph as a list of rows: row `v` lists the arcs of vertex `v` in order, each with
the id of its edge. The compressed arrays that travel between programs (`offsets`, `neighbors`,
`edgeIds`) are views of the rows.
-/
namespace GraphRelay

/-- The far endpoint of an edge, as a row stores it. -/
structure Arc where
  neighbor : Nat
  edge : Nat
  deriving DecidableEq, Repr

/-- An arc together with the row that holds it. -/
structure Entry where
  row : Nat
  col : Nat
  edge : Nat
  deriving DecidableEq, Repr

namespace Entry

def swap (e : Entry) : Entry := ⟨e.col, e.row, e.edge⟩

def arc (e : Entry) : Arc := ⟨e.col, e.edge⟩

@[simp] theorem swap_swap (e : Entry) : e.swap.swap = e := rfl

end Entry

structure Adjacency where
  rows : List (List Arc)
  /-- Whether every row lists its neighbors in ascending order. -/
  sorted : Bool
  deriving DecidableEq, Repr

namespace Adjacency

def rowsSorted (rows : List (List Arc)) : Bool :=
  rows.all fun row => isAscending (row.map Arc.neighbor)

def ofRows (rows : List (List Arc)) : Adjacency := ⟨rows, rowsSorted rows⟩

/-- Neighbors are vertices of the graph and the flag tells the truth. -/
structure WellFormed (a : Adjacency) : Prop where
  neighbor_lt : ∀ row ∈ a.rows, ∀ arc ∈ row, arc.neighbor < a.rows.length
  sorted_eq : a.sorted = rowsSorted a.rows

def vertexCount (a : Adjacency) : Nat := a.rows.length

def arcs (a : Adjacency) : List Arc := a.rows.flatten

def edgeCount (a : Adjacency) : Nat := a.arcs.length

/-- Where each row starts among the arcs, followed by the arc count. -/
def offsetsFrom (start : Nat) : List (List Arc) → List Nat
  | [] => [start]
  | row :: rest => start :: offsetsFrom (start + row.length) rest

def offsets (a : Adjacency) : List Nat := offsetsFrom 0 a.rows

def neighbors (a : Adjacency) : List Nat := a.arcs.map Arc.neighbor

def edgeIds (a : Adjacency) : List Nat := a.arcs.map Arc.edge

/-- The row of `v`, empty when `v` is no vertex. -/
def row (a : Adjacency) (v : Nat) : List Arc := a.rows[v]?.getD []

def degree (a : Adjacency) (v : Nat) : Nat := (a.row v).length

def entriesFrom (start : Nat) : List (List Arc) → List Entry
  | [] => []
  | row :: rest =>
    row.map (fun arc => ⟨start, arc.neighbor, arc.edge⟩) ++ entriesFrom (start + 1) rest

/-- Every arc with its row, row by row. -/
def entries (a : Adjacency) : List Entry := entriesFrom 0 a.rows

/-- The edges from row `r` to neighbor `x`. A sorted row is bisected, any other is scanned. -/
def find (a : Adjacency) (r x : Nat) : List Nat :=
  let row := a.row r
  if a.sorted then
    let lo := partitionPoint row (fun arc => arc.neighbor < x)
    let hi := partitionPoint row (fun arc => arc.neighbor ≤ x)
    ((row.take hi).drop lo).map Arc.edge
  else
    (row.filter (fun arc => arc.neighbor = x)).map Arc.edge

/-- Whether some row lists a neighbor twice. -/
def hasRepeat (a : Adjacency) : Bool :=
  a.rows.any fun row => !decide (row.map Arc.neighbor).Nodup

/-- Arcs by neighbor, then by edge id. -/
def arcLE (x y : Arc) : Bool :=
  x.neighbor < y.neighbor || (x.neighbor == y.neighbor && x.edge ≤ y.edge)

/-- Sorts every row. An adjacency already marked as sorted keeps the order of its parallel edges. -/
def sort (a : Adjacency) : Adjacency :=
  if a.sorted then a else ⟨a.rows.map (·.mergeSort arcLE), true⟩

end Adjacency

end GraphRelay
