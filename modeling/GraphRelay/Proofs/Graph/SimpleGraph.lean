import GraphRelay.Distinct
import GraphRelay.Proofs.Adjacency.Inducing
import GraphRelay.Proofs.Graph.PairCounts

/-!
# One edge per ordered pair

The first arc to each neighbor stays, row by row, with the offsets growing along. What has grown after
some vertices is what their rows without repetitions come to. Such rows stay as they are when the
same is done again.
-/
namespace GraphRelay

namespace Graph

/-- Puts the distinct neighbors of a vertex behind those of the vertices before, and where its row
ends behind where theirs do. -/
def keepFirst (g : Graph) (filled : List Nat × List Nat) (v : Nat) :
    Except Fault (List Nat × List Nat) := do
  let (offsets, neighbors) := filled
  let row ← g.successors v
  let neighbors := neighbors ++ distinct row
  pure (offsets ++ [neighbors.length], neighbors)

/-- The simple graph from arrays that are filled vertex by vertex and looked over in the end. -/
def simplify (g : Graph) : Except Fault FrozenGraph := do
  let (offsets, neighbors) ← (List.range g.vertexCount).foldlM g.keepFirst ([0], [])
  FrozenGraph.ofArrays offsets neighbors (List.range neighbors.length) .outgoing (some false)

/-- The arcs that stay in the row of a vertex, not numbered yet. -/
def firstArcs (g : Graph) (v : Nat) : List Arc :=
  (g.neighborRow .outgoing v).eraseDups.map fun u => ⟨u, 0⟩

variable {g : Graph}

theorem foldlM_keepFirst {vs : List Nat} (inside : ∀ v ∈ vs, v < g.vertexCount)
    (rows : List (List Arc)) :
    vs.foldlM g.keepFirst (Adjacency.offsetsFrom 0 rows, rows.flatten.map Arc.neighbor) =
      .ok (Adjacency.offsetsFrom 0 (rows ++ vs.map g.firstArcs),
        (rows ++ vs.map g.firstArcs).flatten.map Arc.neighbor) := by
  induction vs generalizing rows with
  | nil => rw [List.map_nil, List.append_nil]; rfl
  | cons v vs ih =>
    rw [List.forall_mem_cons] at inside
    have own : (g.firstArcs v).map Arc.neighbor = (g.neighborRow .outgoing v).eraseDups := by
      rw [firstArcs, List.map_map]
      exact List.map_id _
    have next : g.keepFirst (Adjacency.offsetsFrom 0 rows, rows.flatten.map Arc.neighbor) v =
        .ok (Adjacency.offsetsFrom 0 (rows ++ [g.firstArcs v]),
          (rows ++ [g.firstArcs v]).flatten.map Arc.neighbor) := by
      rw [← Adjacency.offsetsFrom_grow, ← Adjacency.map_flatten_concat, own, keepFirst,
        successors_of_lt inside.1]
      simp only [distinct_eq]
      rfl
    have later := ih inside.2 (rows ++ [g.firstArcs v])
    rw [List.append_assoc, List.singleton_append] at later
    rw [List.foldlM_cons, next, List.map_cons]
    exact later

theorem neighborRows_eq (h : g.Reachable) (d : Direction) :
    g.neighborRows d = (List.range g.vertexCount).map (g.neighborRow d) := by
  refine List.ext_getElem (by simp [h.length_neighborRows]) fun v hv _ => ?_
  simp [neighborRow, hv]

theorem simple_eq (h : g.Reachable) : g.simple = .ofAdjacency
    (.ofRows (Adjacency.numberFrom 0 ((List.range g.vertexCount).map g.firstArcs))) .outgoing
    (some false) := by
  rw [simple, neighborRows_eq h, List.map_map]
  rfl

theorem wellFormed_simple (h : g.Reachable) : g.simple.primary.WellFormed := by
  rw [simple_eq h]
  apply Adjacency.wellFormed_numberFrom
  rw [List.length_map, List.length_range]
  intro row hrow arc harc
  obtain ⟨v, -, rfl⟩ := List.mem_map.1 hrow
  obtain ⟨u, hu, rfl⟩ := List.mem_map.1 harc
  exact lt_of_mem_neighborRow h (List.mem_eraseDups.1 hu)

theorem simplify_eq (h : g.Reachable) : g.simplify = .ok g.simple := by
  have filled : (List.range g.vertexCount).foldlM g.keepFirst ([0], []) =
      .ok (g.simple.primary.offsets, g.simple.primary.neighbors) := by
    rw [simple_eq h]
    exact (foldlM_keepFirst (fun v => List.mem_range.1) []).trans
      (congrArg Except.ok (Prod.ext (Adjacency.offsets_numbered _).symm
        (Adjacency.neighbors_numbered _).symm))
  have ids : List.range g.simple.primary.neighbors.length = g.simple.primary.edgeIds := by
    rw [simple_eq h]
    dsimp only [FrozenGraph.ofAdjacency]
    rw [Adjacency.edgeIds_numbered, Adjacency.neighbors_numbered, List.length_map]
  have adopted := (wellFormed_simple h).ofArrays_views
  rw [simplify, filled]
  dsimp only [bind, Except.bind]
  rw [ids, FrozenGraph.ofArrays, adopted]
  rfl

theorem neighborRows_simple (g : Graph) :
    (frozen g.simple).neighborRows .outgoing = (g.neighborRows .outgoing).map List.eraseDups := by
  have own : (frozen g.simple).neighborRows .outgoing = (Adjacency.numberFrom 0
      ((g.neighborRows .outgoing).map fun row => row.eraseDups.map fun v => ⟨v, 0⟩)).map
        (·.map Arc.neighbor) := rfl
  rw [own, Adjacency.map_neighbor_numberFrom, List.map_map]
  refine List.map_congr_left fun row _ => ?_
  rw [Function.comp_apply, List.map_map]
  exact List.map_id _

theorem neighborRow_simple (g : Graph) (v : Nat) :
    (frozen g.simple).neighborRow .outgoing v = (g.neighborRow .outgoing v).eraseDups := by
  rw [neighborRow, neighborRows_simple, List.getElem?_map, neighborRow]
  cases (g.neighborRows .outgoing)[v]? <;> rfl

theorem simple_simple (g : Graph) : (frozen g.simple).simple = g.simple := by
  have same : ((g.neighborRows .outgoing).map List.eraseDups).map
      (fun row => row.eraseDups.map fun v => (⟨v, 0⟩ : Arc)) =
      (g.neighborRows .outgoing).map fun row => row.eraseDups.map fun v => ⟨v, 0⟩ := by
    rw [List.map_map]
    refine List.map_congr_left fun row _ => ?_
    rw [Function.comp_apply, eraseDups_of_nodup (nodup_eraseDups row)]
  rw [simple, neighborRows_simple, same]
  rfl

end Graph

/-- One edge for each ordered pair that `g` has an edge for, numbered by source. -/
structure FrozenGraph.SimpleOf (s : FrozenGraph) (g : Graph) : Prop where
  vertexCount : s.vertexCount = g.vertexCount
  multigraph : s.multigraph = false
  ids : s.edges.map Edge.id = List.range s.edgeCount
  pairCount : ∀ u v, (Graph.frozen s).pairCount u v = min 1 (g.pairCount u v)
  rows : ∀ v row, g.successors v = .ok row →
    ∃ kept, (Graph.frozen s).successors v = .ok kept ∧ Discovers kept row

namespace Graph

variable {g : Graph}

theorem reachable_simple (h : g.Reachable) : (frozen g.simple).Reachable :=
  .frozen (.ofAdjacency (Adjacency.reachable_iff.2 (wellFormed_simple h)) .outgoing (some false))

theorem vertexCount_simple (h : g.Reachable) : g.simple.vertexCount = g.vertexCount := by
  have rows := (reachable_simple h).length_neighborRows .outgoing
  rw [neighborRows_simple, List.length_map, h.length_neighborRows] at rows
  exact rows.symm

theorem simpleOf_simple (h : g.Reachable) : g.simple.SimpleOf g where
  vertexCount := vertexCount_simple h
  multigraph := rfl
  ids := by
    have ids : g.simple.edges.map Edge.id = g.simple.primary.edgeIds := by
      rw [Adjacency.edgeIds, ← Adjacency.map_arc_entries, FrozenGraph.edges, List.map_map,
        List.map_map]
      rfl
    rw [ids]
    exact (Adjacency.edgeIds_numbered _).trans
      (congrArg List.range (Adjacency.edgeCount_numbered _).symm)
  pairCount u v := by
    rw [← count_neighborRow (reachable_simple h), ← count_neighborRow h, neighborRow_simple,
      count_eraseDups]
  rows v row listed := by
    obtain ⟨hv, rfl⟩ := successors_eq_ok_iff.1 listed
    refine ⟨_, successors_of_lt ?_, ?_⟩
    · exact Nat.lt_of_lt_of_eq hv (vertexCount_simple h).symm
    · rw [neighborRow_simple]
      exact discovers_eraseDups _

/-- A graph is made simple whatever it is: one edge stays for each ordered pair that has one, each row
in the order of the first occurrences. Doing it again gives the same arrays. -/
theorem simplify_keeps_one (h : g.Reachable) :
    g.simplify = .ok g.simple ∧ g.simple.SimpleOf g ∧
      (frozen g.simple).simplify = .ok g.simple := by
  refine ⟨simplify_eq h, simpleOf_simple h, ?_⟩
  rw [simplify_eq (reachable_simple h), simple_simple]

/-- Vertex 0 has three edges to 2 and one to 1 in between. -/
theorem simplify_keeps_one_parallel : ∃ s,
    simplify (editable (.listing 3 [(0, 2), (0, 1), (0, 2), (1, 1), (0, 2)] true)) = .ok s ∧
      s.primary.rows = [[⟨2, 0⟩, ⟨1, 1⟩], [⟨1, 2⟩], []] ∧
      (frozen s).pairCount 0 2 = 1 ∧ (frozen s).simplify = .ok s := by
  have reachable : (editable (.listing 3 [(0, 2), (0, 1), (0, 2), (1, 1), (0, 2)] true)).Reachable :=
    .editable (EditableGraph.reachable_listing ⟨by decide, nofun⟩)
  obtain ⟨made, simple, again⟩ := simplify_keeps_one reachable
  exact ⟨_, made, rfl, simple.pairCount 0 2, again⟩

end Graph

end GraphRelay
