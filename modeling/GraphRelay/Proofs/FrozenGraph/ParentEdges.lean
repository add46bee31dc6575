import GraphRelay.FrozenGraph.Subgraph
import GraphRelay.Proofs.EditableGraph.Listing
import GraphRelay.Proofs.FrozenGraph.Views

/-!
# What the edges of a subgraph stand for

A local edge stands for the parent edge that its endpoints and its id lead to. Edges that are listed
by the positions of their endpoints among the chosen vertices lead back to themselves.
-/
namespace GraphRelay

namespace Subgraph

def parentEdge? (s : Subgraph) (e : Edge) : Option Edge :=
  match s.vertices[e.src]?, s.vertices[e.dst]?, s.edges[e.id]? with
  | some src, some dst, some id => some ⟨src, dst, id⟩
  | _, _, _ => none

/-- The parent edges by local id. -/
def parentEdges (s : Subgraph) : List Edge := s.graph.edgesById.filterMap s.parentEdge?

/-- Local edge `i` has id `i` and stands for edge `i` of `parents`. -/
structure Lists (s : Subgraph) (parents : List Edge) : Prop where
  vertexCount : s.graph.vertexCount = s.vertices.length
  edges : s.edges = parents.map Edge.id
  ids : s.graph.edgesById.map Edge.id = List.range parents.length
  located : s.graph.edgesById.map s.parentEdge? = parents.map some

theorem Lists.parentEdges_eq {s : Subgraph} {parents : List Edge} (h : s.Lists parents) :
    s.parentEdges = parents := by
  have located := congrArg (List.filterMap id) h.located
  rwa [List.filterMap_map, List.filterMap_map, Function.id_comp, Function.id_comp,
    List.filterMap_some] at located

end Subgraph

namespace EditableGraph

theorem map_id_numbered (pairs : List (Nat × Nat)) :
    (numbered 0 pairs).map Edge.id = List.range pairs.length := by
  rw [numbered, List.map_map, List.range_eq_range']
  exact List.zipIdx_map_snd 0 pairs

theorem listed_pairs (pairs : List (Nat × Nat)) :
    (Adjacency.listed (pairs.map Prod.fst) (pairs.map Prod.snd) none).map (Entry.edgeOf .outgoing) =
      numbered 0 pairs := by
  have zipped : (pairs.map Prod.fst).zip (pairs.map Prod.snd) = pairs := by
    rw [List.zip_map', List.map_id']
  rw [Adjacency.listed, Adjacency.zipEntries, zipped, Option.getD_none, List.length_map,
    List.map_zipWith, numbered, List.zipIdx_eq_zip_range', ← List.range_eq_range', List.zip,
    List.map_zipWith]
  rfl

end EditableGraph

namespace FrozenGraph

open EditableGraph

/-- Edges numbered from 0 come by id in the order in which they were numbered. -/
theorem edgesById_of_numbered {g : FrozenGraph} {pairs : List (Nat × Nat)}
    (same : g.edges.Perm (numbered 0 pairs)) : g.edgesById = numbered 0 pairs := by
  have ids := map_id_numbered pairs
  have distinct : ((numbered 0 pairs).map Edge.id).Nodup := ids ▸ List.nodup_range
  have ascending : (numbered 0 pairs).Pairwise (Edge.idLE · · = true) := by
    have := List.pairwise_le_range (n := pairs.length)
    rw [← ids, List.pairwise_map] at this
    exact this.imp fun h => decide_eq_true h
  exact (Edge.mergeSort_idLE_eq same distinct).trans (List.mergeSort_of_pairwise ascending)

/-- A graph made from pairs of vertices has them as its edges, numbered from 0. -/
theorem ofCoordinates_pairs {n : Nat} {pairs : List (Nat × Nat)}
    (inside : ∀ p ∈ pairs, p.1 < n ∧ p.2 < n) (multigraph : Option Bool) :
    ∃ g, ofCoordinates n (pairs.map Prod.fst) (pairs.map Prod.snd) none multigraph = .ok g ∧
      g.vertexCount = n ∧ g.edgesById = numbered 0 pairs := by
  have admissible := Adjacency.admissible_pairs inside
  have made : ofCoordinates n (pairs.map Prod.fst) (pairs.map Prod.snd) none multigraph =
      .ok (ofAdjacency
        (.ofEntries n (Adjacency.listed (pairs.map Prod.fst) (pairs.map Prod.snd) none))
        .outgoing multigraph) := by
    rw [ofCoordinates, Adjacency.ofCoordinates_of_admissible admissible]
  obtain ⟨-, -, same⟩ := @Source.build_primary (.coordinates n _ _ none) _ _ made
  rw [Source.edges, listed_pairs] at same
  exact ⟨_, made, Adjacency.vertexCount_ofEntries .., edgesById_of_numbered same⟩

/-- The endpoints of edges by their positions among the chosen vertices. -/
def positions (vertices : List Nat) (parents : List Edge) : List (Nat × Nat) :=
  parents.map fun e => (vertices.idxOf e.src, vertices.idxOf e.dst)

/-- Edges listed by the positions of their endpoints lead back to themselves. -/
theorem lists_of_edgesById {g : FrozenGraph} {vertices : List Nat} {parents : List Edge}
    (inside : ∀ e ∈ parents, e.src ∈ vertices ∧ e.dst ∈ vertices)
    (count : g.vertexCount = vertices.length)
    (byId : g.edgesById = numbered 0 (positions vertices parents)) :
    Subgraph.Lists ⟨g, vertices, parents.map Edge.id⟩ parents := by
  refine ⟨count, rfl, ?_, ?_⟩
  · rw [byId, map_id_numbered, positions, List.length_map]
  · refine List.ext_getElem? fun i => ?_
    rw [byId, numbered, positions, List.getElem?_map, List.getElem?_map, List.getElem?_zipIdx,
      List.getElem?_map, List.getElem?_map]
    cases listed : parents[i]? with
    | none => rfl
    | some e =>
      have endpoints := inside e (List.mem_of_getElem? listed)
      simp [Subgraph.parentEdge?, List.getElem?_idxOf, endpoints, listed]

theorem lists_positions {vertices : List Nat} {parents : List Edge}
    (inside : ∀ e ∈ parents, e.src ∈ vertices ∧ e.dst ∈ vertices) (multigraph : Option Bool) :
    ∃ g, ofCoordinates vertices.length (parents.map fun e => vertices.idxOf e.src)
        (parents.map fun e => vertices.idxOf e.dst) none multigraph = .ok g ∧
      Subgraph.Lists ⟨g, vertices, parents.map Edge.id⟩ parents := by
  have within : ∀ p ∈ positions vertices parents,
      p.1 < vertices.length ∧ p.2 < vertices.length := by
    intro p hp
    obtain ⟨e, he, rfl⟩ := List.mem_map.1 hp
    exact ⟨List.idxOf_lt_length_of_mem (inside e he).1, List.idxOf_lt_length_of_mem (inside e he).2⟩
  obtain ⟨g, made, count, byId⟩ := ofCoordinates_pairs within multigraph
  rw [positions, List.map_map, List.map_map] at made
  exact ⟨g, made, lists_of_edgesById inside count byId⟩

end FrozenGraph

end GraphRelay
