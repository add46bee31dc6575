import GraphRelay.Graph.Bidirected
import GraphRelay.Graph.Simple
import GraphRelay.Proofs.Adjacency.TransposeTwice
import GraphRelay.Proofs.Graph.Halo
import Mathlib.Data.List.Perm.Basic

/-!
# An editable graph and its frozen copy

A frozen copy has the rows of the original by source. The rows by destination it derives, and in them
the arcs of the original stand in the order of their sources. What does not look at the order of the
predecessors is the same for both, anything else up to that order.
-/
namespace GraphRelay

def Edge.srcLE (x y : Edge) : Bool := x.src ≤ y.src

namespace EditableGraph

/-- The frozen copy, built from the entries of all edges in id order. -/
def frozenCopy (m : EditableGraph) : FrozenGraph :=
  .ofAdjacency (.ofEntries m.vertexCount (m.edges.map (Edge.entryOf .outgoing))) .outgoing
    (some m.multigraph)

variable {m : EditableGraph}

theorem entries_pairs (pairs : List (Nat × Nat)) :
    Adjacency.listed (pairs.map Prod.fst) (pairs.map Prod.snd) none =
      (numbered 0 pairs).map (Edge.entryOf .outgoing) := by
  rw [← listed_pairs, Entry.map_entryOf_edgeOf]

theorem Reachable.edge_inside (h : m.Reachable) {e : Edge} (he : e ∈ m.edges) :
    e.src < m.vertexCount ∧ e.dst < m.vertexCount :=
  h.eq_listing.1.inside _ (mem_pairs_of_mem_numbered he)

theorem Reachable.freeze_eq (h : m.Reachable) : m.freeze = .ok m.frozenCopy := by
  have admissible := Adjacency.admissible_pairs h.eq_listing.1.inside
  rw [freeze, FrozenGraph.ofCoordinates, Adjacency.ofCoordinates_of_admissible admissible,
    entries_pairs]
  rfl

theorem Reachable.entry_inside (h : m.Reachable) :
    ∀ e ∈ m.edges.map (Edge.entryOf .outgoing), e.row < m.vertexCount ∧ e.col < m.vertexCount := by
  intro entry hentry
  obtain ⟨e, he, rfl⟩ := List.mem_map.1 hentry
  exact h.edge_inside he

theorem Reachable.wellFormed_frozenCopy (h : m.Reachable) : m.frozenCopy.primary.WellFormed :=
  Adjacency.wellFormed_ofEntries fun e he => (h.entry_inside e he).2

theorem Reachable.reachable_frozenCopy (h : m.Reachable) : m.frozenCopy.Reachable :=
  .ofAdjacency (Adjacency.reachable_iff.2 h.wellFormed_frozenCopy) .outgoing (some m.multigraph)

@[simp] theorem vertexCount_frozenCopy (m : EditableGraph) :
    m.frozenCopy.vertexCount = m.vertexCount := Adjacency.vertexCount_ofEntries ..

theorem view_outgoing_frozenCopy (m : EditableGraph) :
    m.frozenCopy.view .outgoing = m.frozenCopy.primary := rfl

theorem view_incoming_frozenCopy (m : EditableGraph) :
    m.frozenCopy.view .incoming = m.frozenCopy.primary.transpose := rfl

theorem Reachable.outgoing_eq (h : m.Reachable) : m.frozenCopy.primary.rows = m.outgoing := by
  rw [congrArg EditableGraph.outgoing h.eq_listing.2]
  exact Adjacency.rows_ofEntries ..

theorem Reachable.entries_frozenCopy (h : m.Reachable) : m.frozenCopy.primary.entries =
    (m.edges.map (Edge.entryOf .outgoing)).mergeSort Adjacency.rowLE :=
  Adjacency.entries_ofEntries fun e he => (h.entry_inside e he).1

/-- The arcs into a vertex come by source, those of one source in the order they were added. -/
theorem Reachable.row_transpose (h : m.Reachable) {v : Nat} (hv : v < m.vertexCount) :
    m.frozenCopy.primary.transpose.row v = (m.inArcs v).mergeSort Arc.neighborLE := by
  have swapped : m.edges.map (Edge.entryOf .incoming) =
      (m.edges.map (Edge.entryOf .outgoing)).map Entry.swap := by
    rw [List.map_map]
    rfl
  have arcs : m.inArcs v = Adjacency.arcsOf v (m.edges.map (Edge.entryOf .incoming)) :=
    h.arcsAt_eq .incoming hv
  rw [arcs, swapped]
  exact Adjacency.row_transpose_ofEntries h.entry_inside v

end EditableGraph

theorem FrozenGraph.reach_one (g : FrozenGraph) (d : Direction) (v : Nat) :
    g.reach d v 1 = (g.checkVertex v).map fun _ => ((g.view d).row v).map Arc.neighbor := by
  rw [reach]
  cases g.checkVertex v with
  | error f => rfl
  | ok _ => exact congrArg Except.ok (List.append_nil _)

namespace Graph

variable {m : EditableGraph}

theorem vertexCount_frozenCopy (m : EditableGraph) :
    (frozen m.frozenCopy).vertexCount = (editable m).vertexCount := m.vertexCount_frozenCopy

theorem arcRows_outgoing_frozenCopy (h : m.Reachable) :
    (frozen m.frozenCopy).arcRows .outgoing = (editable m).arcRows .outgoing :=
  h.outgoing_eq

theorem edgesInto_frozenCopy (h : m.Reachable) {v : Nat} (hv : v < m.vertexCount) :
    (frozen m.frozenCopy).edgesInto v = ((editable m).edgesInto v).mergeSort Edge.srcLE := by
  have row := h.row_transpose hv
  calc (frozen m.frozenCopy).edgesInto v
      = FrozenGraph.rowEdges .incoming v (m.frozenCopy.primary.transpose.row v) := rfl
    _ = FrozenGraph.rowEdges .incoming v ((m.inArcs v).mergeSort Arc.neighborLE) := by rw [row]
    _ = (FrozenGraph.rowEdges .incoming v (m.inArcs v)).mergeSort Edge.srcLE :=
        List.map_mergeSort fun _ _ _ _ => rfl

theorem edgesIntoVertex_frozenCopy (h : m.Reachable) (v : Nat) :
    (frozen m.frozenCopy).edgesIntoVertex v =
      ((editable m).edgesIntoVertex v).map (·.mergeSort Edge.srcLE) := by
  rw [edgesIntoVertex, edgesIntoVertex, vertexCount_frozenCopy]
  split
  · next hv => rw [edgesInto_frozenCopy h hv, Except.map]
  · rfl

theorem inEdges_singleton (g : Graph) (v : Nat) : g.inEdges [v] = g.edgesIntoVertex v := by
  rw [inEdges_eq, List.mapM_cons]
  cases g.edgesIntoVertex v with
  | error f => rfl
  | ok es => exact congrArg Except.ok (List.append_nil es)

theorem inEdges_frozenCopy (h : m.Reachable) (vs : List Nat) :
    (frozen m.frozenCopy).inEdges vs = (vs.mapM fun v =>
      ((editable m).inEdges [v]).map (·.mergeSort Edge.srcLE)).map List.flatten := by
  rw [inEdges_eq, funext (edgesIntoVertex_frozenCopy h)]
  simp only [inEdges_singleton]

theorem inEdges_error_iff (h : m.Reachable) (vs : List Nat) (f : Fault) :
    (frozen m.frozenCopy).inEdges vs = .error f ↔ (editable m).inEdges vs = .error f := by
  rw [inEdges_frozenCopy h, inEdges_eq]
  simp only [inEdges_singleton, mapM_map, map_error_iff]

theorem checkVertex_frozenCopy (m : EditableGraph) (v : Nat) :
    m.frozenCopy.checkVertex v = m.checkVertex v := by
  rw [FrozenGraph.checkVertex, EditableGraph.vertexCount_frozenCopy]
  rfl

theorem successors_frozenCopy (h : m.Reachable) (v : Nat) :
    (frozen m.frozenCopy).successors v = (editable m).successors v := by
  have row : m.frozenCopy.primary.row v = m.outArcs v :=
    congrArg (fun rows => rows[v]?.getD []) h.outgoing_eq
  rw [successors, successors, FrozenGraph.successors, FrozenGraph.reach_one,
    checkVertex_frozenCopy, EditableGraph.view_outgoing_frozenCopy, row]
  rfl

theorem predecessors_frozenCopy (h : m.Reachable) (v : Nat) :
    (frozen m.frozenCopy).predecessors v =
      ((editable m).predecessors v).map (·.mergeSort fun u v => u ≤ v) := by
  rw [predecessors, predecessors, FrozenGraph.predecessors, FrozenGraph.reach_one,
    checkVertex_frozenCopy, EditableGraph.view_incoming_frozenCopy, EditableGraph.predecessors,
    EditableGraph.checkVertex]
  split
  · next hv =>
    rw [h.row_transpose hv]
    exact congrArg Except.ok (List.map_mergeSort fun _ _ _ _ => rfl)
  · rfl

theorem neighborRows_outgoing_frozenCopy (h : m.Reachable) :
    (frozen m.frozenCopy).neighborRows .outgoing = (editable m).neighborRows .outgoing := by
  rw [neighborRows, neighborRows, arcRows_outgoing_frozenCopy h]

theorem pairs_frozenCopy (h : m.Reachable) :
    (frozen m.frozenCopy).pairs = (editable m).pairs := by
  rw [pairs, pairs, neighborRows_outgoing_frozenCopy h]

theorem simple_frozenCopy (h : m.Reachable) :
    (frozen m.frozenCopy).simple = (editable m).simple := by
  rw [simple, simple, neighborRows_outgoing_frozenCopy h]

theorem bidirectedEditable_frozenCopy (h : m.Reachable) :
    (frozen m.frozenCopy).bidirectedEditable = (editable m).bidirectedEditable := by
  rw [bidirectedEditable, bidirectedEditable, pairs_frozenCopy h, vertexCount_frozenCopy]
  rfl

/-- The edges of the frozen bidirected graph, in id order. -/
def bothWaysEdges (g : Graph) : List (Nat × Nat) :=
  ((g.neighborRows .incoming).zip (g.neighborRows .outgoing)).zipIdx.flatMap
    fun ((preds, succs), u) => bothWaysInto g.pairs u preds succs

def neighborRow (g : Graph) (d : Direction) (v : Nat) : List Nat :=
  (g.neighborRows d)[v]?.getD []

theorem zipIdx_zip_eq {n : Nat} {xs ys : List (List Nat)} (hx : xs.length = n)
    (hy : ys.length = n) : (xs.zip ys).zipIdx =
      (List.range n).map fun i => ((xs[i]?.getD [], ys[i]?.getD []), i) := by
  refine List.ext_getElem (by simp [hx, hy]) fun i hi _ => ?_
  have lt : i < n := by simpa [hx, hy] using hi
  simp [hx, hy, lt]

variable {g g' : Graph}

theorem Reachable.length_neighborRows (h : g.Reachable) (d : Direction) :
    (g.neighborRows d).length = g.vertexCount := by
  rw [neighborRows, List.length_map, h.length_arcRows]

theorem bothWaysEdges_eq (h : g.Reachable) :
    bothWaysEdges g = (List.range g.vertexCount).flatMap fun u =>
      bothWaysInto g.pairs u (g.neighborRow .incoming u) (g.neighborRow .outgoing u) := by
  rw [bothWaysEdges, zipIdx_zip_eq (h.length_neighborRows .incoming)
    (h.length_neighborRows .outgoing), List.flatMap_map]
  rfl

theorem mem_neighborRow (h : g.Reachable) {d : Direction} {u v : Nat} : u ∈ g.neighborRow d v ↔
    ∃ e ∈ g.edges, (e.entryOf d).row = v ∧ (e.entryOf d).col = u := by
  rw [neighborRow, neighborRows, List.getElem?_map]
  constructor
  · intro hu
    cases hrow : (g.arcRows d)[v]? with
    | none => simp [hrow] at hu
    | some row =>
      rw [hrow] at hu
      obtain ⟨arc, harc, rfl⟩ := List.mem_map.1 hu
      have entry := Entry.entryOf_edgeOf d ⟨v, arc.neighbor, arc.edge⟩
      refine ⟨Entry.edgeOf d ⟨v, arc.neighbor, arc.edge⟩, (h.mem_edges_iff d).2 ?_, ?_⟩
      · rw [entry]
        exact ⟨row, hrow, harc⟩
      · rw [entry]
        exact ⟨rfl, rfl⟩
  · rintro ⟨e, he, rfl, rfl⟩
    obtain ⟨row, hrow, harc⟩ := (h.mem_edges_iff d).1 he
    rw [hrow]
    exact List.mem_map_of_mem harc

theorem lt_of_mem_neighborRow (h : g.Reachable) {d : Direction} {u v : Nat}
    (hu : u ∈ g.neighborRow d v) : u < g.vertexCount := by
  obtain ⟨e, he, -, rfl⟩ := (mem_neighborRow h).1 hu
  cases d with
  | outgoing => exact (h.inside he).2
  | incoming => exact (h.inside he).1

theorem mem_bothWaysInto {pairs : List (Nat × Nat)} {u : Nat} {preds succs : List Nat}
    {p : Nat × Nat} (hp : p ∈ bothWaysInto pairs u preds succs) :
    (p.1 ∈ preds ∨ p.1 ∈ succs) ∧ p.2 = u := by
  obtain ⟨v, near, copy⟩ := List.mem_flatMap.1 hp
  obtain rfl := List.eq_of_mem_replicate copy
  rw [List.mem_eraseDups, List.mem_append] at near
  exact ⟨near, rfl⟩

/-- The order of the predecessors only moves the blocks about. -/
theorem bothWaysInto_perm {pairs : List (Nat × Nat)} {u : Nat} {preds preds' succs : List Nat}
    (same : ∀ v, v ∈ preds ↔ v ∈ preds') :
    (bothWaysInto pairs u preds succs).Perm (bothWaysInto pairs u preds' succs) := by
  apply List.Perm.flatMap_right
  rw [List.perm_ext_iff_of_nodup (nodup_eraseDups _) (nodup_eraseDups _)]
  simp [same]

theorem bothWaysEdges_inside (h : g.Reachable) :
    ∀ p ∈ bothWaysEdges g, p.1 < g.vertexCount ∧ p.2 < g.vertexCount := by
  intro p hp
  rw [bothWaysEdges_eq h] at hp
  obtain ⟨u, hu, into⟩ := List.mem_flatMap.1 hp
  obtain ⟨near, rfl⟩ := mem_bothWaysInto into
  exact ⟨near.elim (lt_of_mem_neighborRow h) (lt_of_mem_neighborRow h), List.mem_range.1 hu⟩

theorem countP_numbered (pairs : List (Nat × Nat)) (s d : Nat) :
    (EditableGraph.numbered 0 pairs).countP (fun e => e.src = s ∧ e.dst = d) =
      pairs.count (s, d) := by
  rw [← EditableGraph.map_endpoints_numbered 0 pairs, List.count, List.countP_map,
    EditableGraph.map_endpoints_numbered]
  refine List.countP_congr fun e _ => ?_
  simp

theorem exists_bidirectedFrozen (h : g.Reachable) : ∃ b, g.bidirectedFrozen = .ok b ∧
    b.vertexCount = g.vertexCount ∧ ∀ s d, (b.edges.countP fun e => e.src = s ∧ e.dst = d) =
      (bothWaysEdges g).count (s, d) := by
  obtain ⟨b, made, count, byId⟩ :=
    FrozenGraph.ofCoordinates_pairs (bothWaysEdges_inside h) (some g.multigraph)
  refine ⟨b, made, count, fun s d => ?_⟩
  rw [← countP_numbered, ← byId]
  exact ((List.mergeSort_perm b.edges _).countP_eq _).symm

theorem edges_frozenCopy_perm (h : m.Reachable) :
    (frozen m.frozenCopy).edges.Perm (editable m).edges := by
  have entries : m.frozenCopy.primary.entries.Perm (m.edges.map (Edge.entryOf .outgoing)) := by
    rw [h.entries_frozenCopy]
    exact List.mergeSort_perm ..
  have edges := entries.map (Entry.edgeOf .outgoing)
  rwa [Edge.map_edgeOf_entryOf] at edges

theorem bothWaysEdges_frozenCopy_perm (h : m.Reachable) :
    (bothWaysEdges (frozen m.frozenCopy)).Perm (bothWaysEdges (editable m)) := by
  have copied : (frozen m.frozenCopy).Reachable := .frozen h.reachable_frozenCopy
  have own : (editable m).Reachable := .editable h
  have succs (u : Nat) :
      (frozen m.frozenCopy).neighborRow .outgoing u = (editable m).neighborRow .outgoing u := by
    rw [neighborRow, neighborRow, neighborRows_outgoing_frozenCopy h]
  rw [bothWaysEdges_eq copied, bothWaysEdges_eq own, vertexCount_frozenCopy, pairs_frozenCopy h]
  refine List.Perm.flatMap_left _ fun u _ => ?_
  rw [succs]
  refine bothWaysInto_perm fun v => ?_
  rw [mem_neighborRow copied, mem_neighborRow own]
  simp only [(edges_frozenCopy_perm h).mem_iff]

theorem bidirectedFrozen_frozenCopy (h : m.Reachable) : ∃ a b,
    (editable m).bidirectedFrozen = .ok a ∧ (frozen m.frozenCopy).bidirectedFrozen = .ok b ∧
    a.vertexCount = b.vertexCount ∧ ∀ s d, (a.edges.countP fun e => e.src = s ∧ e.dst = d) =
      b.edges.countP fun e => e.src = s ∧ e.dst = d := by
  obtain ⟨a, original, size, counts⟩ := exists_bidirectedFrozen (.editable h)
  obtain ⟨b, copy, size', counts'⟩ := exists_bidirectedFrozen (.frozen h.reachable_frozenCopy)
  refine ⟨a, b, original, copy, ?_, fun s d => ?_⟩
  · rw [size, size', vertexCount_frozenCopy]
  · rw [counts, counts', (bothWaysEdges_frozenCopy_perm h).count_eq]

end Graph

/-- Halos that differ at most in the order of their edges. -/
structure Halo.Alike (a b : Halo) : Prop where
  vertices : a.sub.vertices = b.sub.vertices
  innerVertices : a.innerVertices = b.innerVertices
  edges : (a.sub.parentEdges.zip a.innerEdges).Perm (b.sub.parentEdges.zip b.innerEdges)
  lists : a.sub.Lists a.sub.parentEdges ∧ b.sub.Lists b.sub.parentEdges
  marked : a.innerEdges.length = a.sub.parentEdges.length ∧
    b.innerEdges.length = b.sub.parentEdges.length

theorem Halo.Surrounds.alike {a b : Halo} {g : Graph} {seeds : List Nat} {hops : Nat}
    (ha : a.Surrounds g seeds hops) (hb : b.Surrounds g seeds hops) : a.Alike b := by
  have vertices : a.sub.vertices = b.sub.vertices := by
    have same (v : Nat) : v ∈ a.sub.vertices ↔ v ∈ b.sub.vertices :=
      (ha.mem_vertices v).trans (hb.mem_vertices v).symm
    have perm := (List.perm_ext_iff_of_nodup (ha.ascending.imp Nat.ne_of_lt)
      (hb.ascending.imp Nat.ne_of_lt)).2 same
    exact perm.eq_of_pairwise (fun _ _ _ _ hlt hgt => absurd hgt (Nat.lt_asymm hlt)) ha.ascending
      hb.ascending
  have taken : a.sub.parentEdges.Perm b.sub.parentEdges := ha.taken.trans hb.taken.symm
  refine ⟨vertices, ?_, ?_, ⟨ha.lists, hb.lists⟩, ?_, ?_⟩
  · rw [ha.innerVertices, hb.innerVertices, vertices]
  · rw [ha.innerEdges, hb.innerEdges, ← List.map_prod_left_eq_zip, ← List.map_prod_left_eq_zip]
    exact taken.map _
  · rw [ha.innerEdges, List.length_map]
  · rw [hb.innerEdges, List.length_map]

namespace Graph

theorem halo_frozenCopy (h : m.Reachable) (seeds : List Nat) (hops : Nat) :
    (∃ f, (editable m).halo seeds hops = .error f ∧
      (frozen m.frozenCopy).halo seeds hops = .error f) ∨
    ∃ a b, (editable m).halo seeds hops = .ok a ∧ (frozen m.frozenCopy).halo seeds hops = .ok b ∧
      a.Alike b := by
  have copied : (frozen m.frozenCopy).Reachable := .frozen h.reachable_frozenCopy
  by_cases inside : ∀ s ∈ seeds, s < m.vertexCount
  · right
    obtain ⟨a, original, around⟩ := @exists_halo (editable m) seeds hops (.editable h) inside
    rw [← m.vertexCount_frozenCopy] at inside
    obtain ⟨b, copy, around'⟩ := @exists_halo (frozen m.frozenCopy) seeds hops copied inside
    exact ⟨a, b, original, copy, around.alike (around'.of_edges_perm (edges_frozenCopy_perm h))⟩
  · left
    simp only [not_forall, Nat.not_lt] at inside
    obtain ⟨s, hs, outside⟩ := inside
    obtain ⟨f, refused, -⟩ := @inEdges_of_outside (editable m) seeds.eraseDups
      ⟨s, List.mem_eraseDups.2 hs, outside⟩
    exact ⟨f, halo_eq_error refused, halo_eq_error ((inEdges_error_iff h _ f).2 refused)⟩

/-- What a graph and its frozen copy answer alike, and how far. -/
structure AnswersAlike (m : EditableGraph) (i : FrozenGraph) : Prop where
  successors : ∀ v, (frozen i).successors v = (editable m).successors v
  predecessors : ∀ v, (frozen i).predecessors v =
    ((editable m).predecessors v).map (·.mergeSort fun u v => u ≤ v)
  inEdges : ∀ vs, (frozen i).inEdges vs = (vs.mapM fun v =>
    ((editable m).inEdges [v]).map (·.mergeSort Edge.srcLE)).map List.flatten
  inEdges_error : ∀ vs f, (frozen i).inEdges vs = .error f ↔ (editable m).inEdges vs = .error f
  simple : (frozen i).simple = (editable m).simple
  bidirectedEditable : (frozen i).bidirectedEditable = (editable m).bidirectedEditable
  bidirectedFrozen : ∃ a b, (editable m).bidirectedFrozen = .ok a ∧
    (frozen i).bidirectedFrozen = .ok b ∧ a.vertexCount = b.vertexCount ∧
    ∀ s d, (a.edges.countP fun e => e.src = s ∧ e.dst = d) =
      b.edges.countP fun e => e.src = s ∧ e.dst = d
  halo : ∀ seeds hops,
    (∃ f, (editable m).halo seeds hops = .error f ∧ (frozen i).halo seeds hops = .error f) ∨
    ∃ a b, (editable m).halo seeds hops = .ok a ∧ (frozen i).halo seeds hops = .ok b ∧ a.Alike b

/-- Every editable graph that calls can lead to has a frozen copy, which answers as it does: in all
that depends on the successors, and up to the order of the predecessors in all else. -/
theorem freeze_answers_alike {m : EditableGraph} (attained : m.Attained) :
    ∃ i, m.freeze = .ok i ∧ AnswersAlike m i := by
  have h := attained.reachable
  refine ⟨_, h.freeze_eq, ?_⟩
  exact ⟨successors_frozenCopy h, predecessors_frozenCopy h, inEdges_frozenCopy h,
    inEdges_error_iff h, simple_frozenCopy h, bidirectedEditable_frozenCopy h,
    bidirectedFrozen_frozenCopy h, halo_frozenCopy h⟩

/-- Parallel edges and a loop, the sources of vertex 1 in no order. -/
theorem freeze_answers_alike_five :
    ∃ i, (EditableGraph.listing 3 [(2, 1), (0, 1), (2, 1), (1, 1), (1, 0)] true).freeze = .ok i ∧
      (frozen i).successors 2 = .ok [1, 1] ∧ (frozen i).predecessors 1 = .ok [0, 1, 2, 2] ∧
      (frozen i).inEdges [1, 3] = .error (.vertexOutside 3 3) := by
  have reachable : EditableGraph.Reachable
      (.listing 3 [(2, 1), (0, 1), (2, 1), (1, 1), (1, 0)] true) :=
    EditableGraph.reachable_listing ⟨by decide, by simp⟩
  obtain ⟨i, frozen, alike⟩ :=
    freeze_answers_alike (EditableGraph.attained_iff.2 ⟨reachable, by decide⟩)
  refine ⟨i, frozen, alike.successors 2, ?_, (alike.inEdges_error [1, 3] _).2 rfl⟩
  rw [alike.predecessors]
  have sources : (editable (EditableGraph.listing 3 [(2, 1), (0, 1), (2, 1), (1, 1), (1, 0)]
      true)).predecessors 1 = .ok [2, 0, 2, 1] := rfl
  rw [sources]
  simp [Except.map, List.mergeSort]

end Graph

end GraphRelay
