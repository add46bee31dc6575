import Mathlib.Data.List.Nodup
import GraphRelay.Graph.LineGraph
import GraphRelay.Proofs.EditableGraph.InStep

/-!
# Line graphs

The line graph of every editable graph that can be made is there, although it is simple: an edge is
led to from another one at most once, for no edge leaves a vertex twice.
-/
namespace GraphRelay

/-- `f` may be taken right after `e`. The way straight back to the source of `e` takes
`backtracking`. -/
def Edge.LeadsTo (backtracking : Bool) (e f : Edge) : Prop :=
  e.dst = f.src ∧ (backtracking = true ∨ f.dst ≠ e.src)

instance (backtracking : Bool) (e f : Edge) : Decidable (e.LeadsTo backtracking f) :=
  inferInstanceAs (Decidable (_ ∧ _))

namespace EditableGraph

variable {g : EditableGraph} {backtracking : Bool}

/-- The ids of the edges that may be taken one right after the other, in the order in which they
are found. -/
def successions (g : EditableGraph) (backtracking : Bool) : List (Nat × Nat) :=
  g.edges.flatMap fun e =>
    (g.edges.filter fun f => e.LeadsTo backtracking f).map fun f => (e.id, f.id)

theorem mem_successions {p : Nat × Nat} :
    p ∈ g.successions backtracking ↔
      ∃ e ∈ g.edges, ∃ f ∈ g.edges, e.LeadsTo backtracking f ∧ (e.id, f.id) = p := by
  simp only [successions, List.mem_flatMap, List.mem_map, List.mem_filter, decide_eq_true_eq,
    and_assoc]

theorem id_lt_of_mem {e : Edge} (he : e ∈ g.edges) : e.id < g.edgeCount := by
  have listed : e.id ∈ g.edges.map Edge.id := List.mem_map_of_mem he
  simpa [map_id_edges] using listed

theorem eq_of_id_eq {e f : Edge} (he : e ∈ g.edges) (hf : f ∈ g.edges) (same : e.id = f.id) :
    e = f := by
  have distinct : (g.edges.map Edge.id).Nodup := g.map_id_edges ▸ List.nodup_range
  exact List.inj_on_of_nodup_map distinct he hf same

theorem nodup_edges (g : EditableGraph) : g.edges.Nodup := by
  have distinct : (g.edges.map Edge.id).Nodup := g.map_id_edges ▸ List.nodup_range
  exact distinct.of_map

theorem mk_id_mem_successions {e f : Edge} (he : e ∈ g.edges) (hf : f ∈ g.edges) :
    (e.id, f.id) ∈ g.successions backtracking ↔ e.LeadsTo backtracking f := by
  rw [mem_successions]
  constructor
  · intro h
    obtain ⟨e', he', f', hf', leads, same⟩ := h
    simp only [Prod.mk.injEq] at same
    rwa [eq_of_id_eq he' he same.1, eq_of_id_eq hf' hf same.2] at leads
  · intro leads
    exact ⟨e, he, f, hf, leads, rfl⟩

theorem nodup_successions (g : EditableGraph) (backtracking : Bool) :
    (g.successions backtracking).Nodup := by
  have edges := g.nodup_edges
  rw [successions, List.nodup_flatMap]
  constructor
  · intro e he
    apply (edges.filter _).map_on
    intro f hf f' hf' same
    simp only [Prod.mk.injEq] at same
    exact eq_of_id_eq (List.mem_of_mem_filter hf) (List.mem_of_mem_filter hf') same.2
  · apply edges.imp_of_mem
    intro e e' he he' different p hp hp'
    simp only [List.mem_map] at hp hp'
    obtain ⟨f, -, rfl⟩ := hp
    obtain ⟨f', -, same⟩ := hp'
    simp only [Prod.mk.injEq] at same
    exact different (eq_of_id_eq he he' same.1.symm)

theorem listable_successions (g : EditableGraph) (backtracking : Bool) :
    Listable g.edgeCount (g.successions backtracking) false where
  inside p hp := by
    obtain ⟨e, he, f, hf, -, rfl⟩ := mem_successions.1 hp
    exact ⟨id_lt_of_mem he, id_lt_of_mem hf⟩
  simple _ := g.nodup_successions backtracking

theorem Reachable.followers_eq (h : g.Reachable) {e : Edge} (he : e ∈ g.edges) :
    g.followers backtracking e.id e.src e.dst =
      (g.edges.filter fun f => e.LeadsTo backtracking f).map fun f => (e.id, f.id) := by
  have leaving : g.outArcs e.dst = (g.edges.filter (·.src = e.dst)).map fun f => ⟨f.dst, f.id⟩ := by
    have kept := h.arcsAt_eq .outgoing (h.inStep.inside e he).2
    rwa [arcsOf_edges] at kept
  simp only [followers, leaving, List.filter_map, List.map_map, List.filter_filter]
  congr 1
  apply List.filter_congr
  intro f _
  simp [Edge.LeadsTo, Bool.and_comm, eq_comm]

theorem Reachable.flatMap_followers (h : g.Reachable) (backtracking : Bool) :
    (g.edges.flatMap fun e => g.followers backtracking e.id e.src e.dst) =
      g.successions backtracking :=
  List.flatMap_congr fun _ he => h.followers_eq he

theorem addPairs_successions (g : EditableGraph) (backtracking : Bool) :
    ((empty false).addVertices g.edgeCount).addPairs (g.successions backtracking) =
      (listing g.edgeCount (g.successions backtracking) false, none) := by
  rw [addVertices_empty]
  exact addPairs_listing (g.listable_successions backtracking)

theorem Reachable.lineGraph_eq (h : g.Reachable) (backtracking : Bool) :
    g.lineGraph backtracking = .ok (listing g.edgeCount (g.successions backtracking) false) := by
  have added := g.addPairs_successions backtracking
  unfold lineGraph
  simp only [← h.flatMap_followers, edges, List.flatMap_map] at added ⊢
  rw [added]

/-- What leaves the destination of `e`, read from the two lists kept for it and added one by one. -/
def continueEdge (g : EditableGraph) (backtracking : Bool) (line : EditableGraph) (e : Edge) :
    Except Fault EditableGraph := do
  let neighbors ← g.successors e.dst
  let ids ← g.outEdgeIds e.dst
  (neighbors.zip ids).foldlM
    (fun line (w, j) =>
      if backtracking || w ≠ e.src then line.addEdge e.id j else pure line) line

def growLineGraph (g : EditableGraph) (backtracking : Bool) : Except Fault EditableGraph :=
  g.edges.foldlM (g.continueEdge backtracking) ((empty false).addVertices g.edgeCount)

theorem continueEdge_eq {e : Edge} (inside : e.dst < g.vertexCount) (line : EditableGraph) :
    g.continueEdge backtracking line e =
      (g.followers backtracking e.id e.src e.dst).foldlM (fun l p => l.addEdge p.1 p.2) line := by
  simp only [continueEdge, successors, outEdgeIds, checkVertex_of_lt inside, followers,
    List.foldlM_map, List.foldlM_filter]
  change ((((g.outArcs e.dst).map Arc.neighbor).zip ((g.outArcs e.dst).map Arc.edge)).foldlM _ line
    : Except Fault EditableGraph) = _
  rw [List.zip_map', List.foldlM_map]

theorem addPairs_eq_foldlM (g : EditableGraph) (pairs : List (Nat × Nat)) :
    pairs.foldlM (fun g p => g.addEdge p.1 p.2) g =
      match g.addPairs pairs with
      | (_, some f) => .error f
      | (added, none) => .ok added := by
  induction pairs generalizing g with
  | nil => rfl
  | cons p pairs ih =>
    simp only [List.foldlM_cons, addPairs]
    cases g.addEdge p.1 p.2 with
    | error f => rfl
    | ok next => exact ih next

theorem foldlM_continueEdge {es : List Edge} (inside : ∀ e ∈ es, e.dst < g.vertexCount)
    (line : EditableGraph) :
    es.foldlM (g.continueEdge backtracking) line =
      (es.flatMap fun e => g.followers backtracking e.id e.src e.dst).foldlM
        (fun l p => l.addEdge p.1 p.2) line := by
  induction es generalizing line with
  | nil => rfl
  | cons e es ih =>
    rw [List.forall_mem_cons] at inside
    rw [List.foldlM_cons, List.flatMap_cons, List.foldlM_append, continueEdge_eq inside.1]
    exact congrArg _ (funext (ih inside.2))

theorem Reachable.growLineGraph_eq (h : g.Reachable) (backtracking : Bool) :
    g.growLineGraph backtracking = g.lineGraph backtracking := by
  rw [growLineGraph, foldlM_continueEdge fun e he => (h.inStep.inside e he).2,
    h.flatMap_followers, addPairs_eq_foldlM, addPairs_successions, h.lineGraph_eq]

def edgesBetween (g : EditableGraph) (i j : Nat) : Nat :=
  g.edges.countP fun e => e.src = i ∧ e.dst = j

theorem edgesBetween_listing (n : Nat) (pairs : List (Nat × Nat)) (multigraph : Bool) (i j : Nat) :
    (listing n pairs multigraph).edgesBetween i j = pairs.count (i, j) := by
  have endpoints := map_endpoints_numbered 0 pairs
  calc (listing n pairs multigraph).edgesBetween i j
      = ((numbered 0 pairs).map fun e => (e.src, e.dst)).countP (· == (i, j)) := by
        rw [List.countP_map]
        apply List.countP_congr
        intro e _
        simp
    _ = pairs.count (i, j) := by rw [endpoints, List.count]

end EditableGraph

open EditableGraph

/-- The line graph of an editable graph that calls can lead to is there and has the edge `i -> j` once
where edge `j` may be taken right after edge `i`, and no other edge; a frozen graph is refused. -/
theorem Graph.lineGraph_contains {g : EditableGraph} (attained : g.Attained) (backtracking : Bool) :
    (∃ line, (Graph.editable g).lineGraph backtracking = .ok line ∧
      g.growLineGraph backtracking = .ok line ∧
      line.Reachable ∧ line.multigraph = false ∧ line.vertexCount = g.edgeCount ∧
      (∀ e ∈ g.edges, ∀ f ∈ g.edges,
        line.edgesBetween e.id f.id = if e.LeadsTo backtracking f then 1 else 0) ∧
      ∀ l ∈ line.edges, ∃ e ∈ g.edges, ∃ f ∈ g.edges,
        e.LeadsTo backtracking f ∧ e.id = l.src ∧ f.id = l.dst) ∧
    ∀ frozen : FrozenGraph, ∃ fault,
      (Graph.frozen frozen).lineGraph backtracking = .error fault ∧ fault.kind = .precondition := by
  have h := attained.reachable
  constructor
  · have made := h.lineGraph_eq backtracking
    refine ⟨listing g.edgeCount (g.successions backtracking) false, made,
      (h.growLineGraph_eq backtracking).trans made,
      reachable_listing (g.listable_successions backtracking), rfl, vertexCount_listing, ?_, ?_⟩
    · intro e he f hf
      rw [edgesBetween_listing, (g.nodup_successions backtracking).count]
      simp only [mk_id_mem_successions he hf]
    · intro l hl
      obtain ⟨e, he, f, hf, leads, same⟩ := mem_successions.1 (mem_pairs_of_mem_numbered hl)
      simp only [Prod.mk.injEq] at same
      exact ⟨e, he, f, hf, leads, same⟩
  · intro frozen
    exact ⟨.needsMutable "line_graph", rfl, rfl⟩

/-- Of two parallel edges, one back and a loop, without backtracking: the loop may not follow
itself, but may come before the edge back and after each of the parallel ones. -/
theorem Graph.lineGraph_contains_loop :
    (listing 2 [(0, 1), (0, 1), (1, 0), (1, 1)] true).Attained ∧
    ∃ line, (Graph.editable (listing 2 [(0, 1), (0, 1), (1, 0), (1, 1)] true)).lineGraph false =
        .ok line ∧ line.vertexCount = 4 ∧
      line.edgesBetween 0 3 = 1 ∧ line.edgesBetween 1 3 = 1 ∧ line.edgesBetween 3 2 = 1 ∧
      line.edgesBetween 0 2 = 0 ∧ line.edgesBetween 3 3 = 0 := by
  have attained : (listing 2 [(0, 1), (0, 1), (1, 0), (1, 1)] true).Attained :=
    attained_iff.2 ⟨reachable_listing ⟨by decide, by decide⟩, by decide⟩
  obtain ⟨⟨line, made, -, -, -, count, between, -⟩, -⟩ := Graph.lineGraph_contains attained false
  exact ⟨attained, line, made, count,
    between ⟨0, 1, 0⟩ (by decide) ⟨1, 1, 3⟩ (by decide),
    between ⟨0, 1, 1⟩ (by decide) ⟨1, 1, 3⟩ (by decide),
    between ⟨1, 1, 3⟩ (by decide) ⟨1, 0, 2⟩ (by decide),
    between ⟨0, 1, 0⟩ (by decide) ⟨1, 0, 2⟩ (by decide),
    between ⟨1, 1, 3⟩ (by decide) ⟨1, 1, 3⟩ (by decide)⟩

end GraphRelay
