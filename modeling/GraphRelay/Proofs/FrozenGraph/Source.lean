import GraphRelay.FrozenGraph.Query
import GraphRelay.Proofs.Adjacency.Arrays
import GraphRelay.Proofs.Adjacency.Coordinates

/-!
# What a frozen graph is built from

A graph is built from coordinate lists or from the compressed arrays of one direction. Either way its
primary adjacency holds exactly the edges that were given.
-/
namespace GraphRelay

/-- Source and destination of an edge. -/
def Edge.endpoints (e : Edge) : Nat × Nat := (e.src, e.dst)

/-- The edges that an adjacency of direction `d` stands for. -/
def Adjacency.edgesOf (d : Direction) (a : Adjacency) : List Edge :=
  a.entries.map (Entry.edgeOf d)

namespace FrozenGraph

theorem ofCoordinates_eq_ok {n : Nat} {src dst : List Nat} {ids : Option (List Nat)}
    {multigraph : Option Bool} {g : FrozenGraph}
    (h : ofCoordinates n src dst ids multigraph = .ok g) :
    ∃ a, Adjacency.ofCoordinates n src dst ids = .ok a ∧ ofAdjacency a .outgoing multigraph = g := by
  rw [ofCoordinates] at h
  split at h
  · exact absurd h (by simp)
  · next a ha => exact ⟨a, ha, Except.ok.inj h⟩

theorem ofArrays_eq_ok {offsets neighbors edgeIds : List Nat} {d : Direction}
    {multigraph : Option Bool} {g : FrozenGraph}
    (h : ofArrays offsets neighbors edgeIds d multigraph = .ok g) :
    ∃ a, Adjacency.ofArrays offsets neighbors edgeIds = .ok a ∧ ofAdjacency a d multigraph = g := by
  rw [ofArrays] at h
  split at h
  · exact absurd h (by simp)
  · next a ha => exact ⟨a, ha, Except.ok.inj h⟩

inductive Source where
  | coordinates (n : Nat) (src dst : List Nat) (ids : Option (List Nat))
  | arrays (offsets neighbors edgeIds : List Nat) (d : Direction)

namespace Source

def build (multigraph : Option Bool) : Source → Except Fault FrozenGraph
  | coordinates n src dst ids => ofCoordinates n src dst ids multigraph
  | arrays offsets neighbors edgeIds d => ofArrays offsets neighbors edgeIds d multigraph

/-- The edges that are given: arrays list for each vertex as many as its offsets are apart. -/
def edges : Source → List Edge
  | coordinates _ src dst ids => (Adjacency.listed src dst ids).map (Entry.edgeOf .outgoing)
  | arrays offsets neighbors edgeIds d =>
    let rows := repeatRuns (List.range (offsets.length - 1)) offsets
    (Adjacency.zipEntries rows neighbors edgeIds).map (Entry.edgeOf d)

theorem build_primary {source : Source} {multigraph : Option Bool} {g : FrozenGraph}
    (h : source.build multigraph = .ok g) : g.derived = none ∧ g.primary.WellFormed ∧
      (g.primary.edgesOf g.direction).Perm source.edges := by
  cases source with
  | coordinates n src dst ids =>
    obtain ⟨a, ha, rfl⟩ := ofCoordinates_eq_ok h
    obtain ⟨admissible, rfl⟩ := Adjacency.ofCoordinates_eq_ok_iff.1 ha
    refine ⟨rfl, admissible.wellFormed, ?_⟩
    rw [ofAdjacency, Adjacency.edgesOf, Adjacency.entries_ofEntries admissible.row_lt_of_mem]
    exact (List.mergeSort_perm ..).map _
  | arrays offsets neighbors edgeIds d =>
    obtain ⟨a, ha, rfl⟩ := ofArrays_eq_ok h
    refine ⟨rfl, Adjacency.wellFormed_ofArrays ha, ?_⟩
    rw [ofAdjacency, Adjacency.edgesOf, Adjacency.entries_of_ofArrays ha]
    exact .refl _

end Source

end FrozenGraph

end GraphRelay
