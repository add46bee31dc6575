import GraphRelay.Proofs.Adjacency.Inducing
import GraphRelay.Proofs.FrozenGraph.ParentEdges
import GraphRelay.Proofs.Graph.Edges
import GraphRelay.Proofs.Graph.Walks
import Mathlib.Data.List.Perm.Basic

/-!
# Induced subgraphs

Cut out by vertices, a graph keeps the edges among them, whichever direction its rows stand for. Each
such edge is kept once, parallel edges and edges of one id included.
-/
namespace GraphRelay

/-- A rearranged selection of `ys` picks different places of `ys`, those of the selected elements. -/
theorem exists_places {α : Type} {xs ys : List α} {p : α → Prop} [DecidablePred p]
    (h : xs.Perm (ys.filter p)) : ∃ places : List Nat, places.Nodup ∧
      (∀ i, i ∈ places ↔ ∃ y, ys[i]? = some y ∧ p y) ∧
      xs.map some = places.map (ys[·]?) := by
  have selected : ys.filter p = (ys.zipIdx.filter fun (y, _) => p y).map Prod.fst := by
    have all := List.filter_map (f := Prod.fst) (p := fun y => decide (p y)) (l := ys.zipIdx)
    rwa [List.zipIdx_map_fst] at all
  have paired : List.Forall₂ (fun y (q : α × Nat) => y = q.1) (ys.filter p)
      (ys.zipIdx.filter fun (y, _) => p y) := by
    rw [selected, List.forall₂_map_left_iff, List.forall₂_same]
    exact fun _ _ => rfl
  obtain ⟨found, matched, same⟩ := List.perm_comp_forall₂ h paired
  refine ⟨found.map Prod.snd, ?_, fun i => ?_, ?_⟩
  · rw [(same.map Prod.snd).nodup_iff]
    have all : (ys.zipIdx.map Prod.snd).Nodup := by
      rw [List.zipIdx_map_snd]
      exact List.nodup_range'
    exact all.sublist (List.filter_sublist.map _)
  · rw [(same.map Prod.snd).mem_iff]
    simp [List.mem_zipIdx_iff_getElem?]
  · have own : xs = found.map Prod.fst := by
      rw [← List.forall₂_eq_eq_eq, List.forall₂_map_right_iff]
      exact matched
    rw [own, List.map_map, List.map_map]
    refine List.map_congr_left fun q hq => ?_
    have listed := (List.mem_filter.1 (same.mem_iff.1 hq)).1
    exact (List.mem_zipIdx_iff_getElem?.1 listed).symm

namespace Adjacency

/-- An entry by the positions of its vertices among the chosen. -/
def relabel (chosen : List Nat) (e : Entry) : Entry :=
  ⟨chosen.idxOf e.row, chosen.idxOf e.col, e.edge⟩

/-- The entries that a choice keeps, in its order. -/
def keptEntries (a : Adjacency) (chosen : List Nat) : List Entry :=
  chosen.flatMap fun v =>
    ((a.row v).filter (·.neighbor ∈ chosen)).map fun arc => ⟨v, arc.neighbor, arc.edge⟩

variable {a : Adjacency} {chosen : List Nat}

theorem map_keptArcs (v : Nat) :
    ((a.keptArcs chosen v).map fun arc => (⟨chosen.idxOf v, arc.neighbor, arc.edge⟩ : Entry)) =
      (((a.row v).filter (·.neighbor ∈ chosen)).map fun arc =>
        (⟨v, arc.neighbor, arc.edge⟩ : Entry)).map (relabel chosen) := by
  rw [keptArcs]
  induction a.row v with
  | nil => rfl
  | cons arc row ih =>
    rw [List.filterMap_cons, List.filter_cons]
    cases place : chosen.idxOf? arc.neighbor with
    | none =>
      have absent := List.idxOf?_eq_none_iff.1 place
      simpa [absent] using ih
    | some i =>
      have present : arc.neighbor ∈ chosen := by
        by_contra absent
        rw [List.idxOf?_eq_none_iff.2 absent] at place
        cases place
      have at_i : chosen.idxOf arc.neighbor = i := by rw [List.idxOf_eq_getD_idxOf?, place]; rfl
      simpa [present, relabel, at_i] using ih

/-- Row by row in the order of the choice, positions number the rows that are kept. -/
theorem entriesFrom_keptArcs {before rest : List Nat} (nodup : (before ++ rest).Nodup) :
    entriesFrom before.length (rest.map (a.keptArcs (before ++ rest))) =
      (rest.flatMap fun v => ((a.row v).filter (·.neighbor ∈ before ++ rest)).map fun arc =>
        (⟨v, arc.neighbor, arc.edge⟩ : Entry)).map (relabel (before ++ rest)) := by
  induction rest generalizing before with
  | nil => rfl
  | cons v rest ih =>
    have new : v ∉ before := fun old =>
      (List.nodup_append.1 nodup).2.2 v old v List.mem_cons_self rfl
    have place : (before ++ v :: rest).idxOf v = before.length := by
      rw [List.idxOf_append_of_notMem new, List.idxOf_cons_self, Nat.add_zero]
    have row := @map_keptArcs a (before ++ v :: rest) v
    rw [place] at row
    have later := @ih (before ++ [v])
    simp only [List.append_assoc, List.singleton_append, List.length_append,
      List.length_singleton] at later
    rw [List.map_cons, entriesFrom, row, later nodup, List.flatMap_cons, List.map_append]

theorem entriesFrom_kept (nodup : chosen.Nodup) :
    entriesFrom 0 (chosen.map (a.keptArcs chosen)) =
      (a.keptEntries chosen).map (relabel chosen) :=
  @entriesFrom_keptArcs a [] chosen nodup

theorem filter_row_entries (a : Adjacency) (v : Nat) : a.entries.filter (·.row = v) =
    (a.row v).map fun arc => ⟨v, arc.neighbor, arc.edge⟩ := by
  rw [← arcsOf_entries, arcsOf, List.map_map]
  refine (List.map_id'' (fun _ => rfl) _).symm.trans (List.map_congr_left fun e he => ?_)
  exact Entry.eq_of_row_of_arc (of_decide_eq_true (List.mem_filter.1 he).2) rfl

theorem keptEntries_perm (nodup : chosen.Nodup) : (a.keptEntries chosen).Perm
    (a.entries.filter fun e => e.row ∈ chosen ∧ e.col ∈ chosen) := by
  have apart : ∀ e ∈ a.entries.filter (·.col ∈ chosen), ∀ u v, e.row = u → e.row = v → u = v :=
    fun _ _ _ _ hu hv => hu.symm.trans hv
  have each : ∀ v ∈ chosen, (((a.row v).filter (·.neighbor ∈ chosen)).map fun arc =>
      (⟨v, arc.neighbor, arc.edge⟩ : Entry)).Perm
      ((a.entries.filter (·.col ∈ chosen)).filter (·.row = v)) := by
    intro v _
    rw [List.filter_comm, filter_row_entries, List.filter_map]
    exact .refl _
  have all := flatMap_perm_filter nodup apart (List.forall₂_same.2 each)
  rw [List.filter_filter] at all
  simpa only [exists_eq_right', ← Bool.decide_and, keptEntries] using all

/-- The edges that a choice keeps, in its order. -/
def keptEdges (a : Adjacency) (d : Direction) (chosen : List Nat) : List Edge :=
  (a.keptEntries chosen).map (Entry.edgeOf d)

theorem keptEdges_perm (nodup : chosen.Nodup) (d : Direction) :
    (a.keptEdges d chosen).Perm ((a.edgesOf d).filter (Edge.Among chosen)) := by
  have kept := (keptEntries_perm (a := a) nodup).map (Entry.edgeOf d)
  rw [edgesOf, List.filter_map]
  refine kept.trans (.of_eq (congrArg _ (List.filter_congr fun e _ => ?_)))
  rw [Function.comp_apply, decide_eq_decide]
  cases d
  · exact and_comm
  · exact .rfl

/-- The numbered rows of a choice stand for the edges it keeps, by the positions of their endpoints. -/
theorem edgesOf_kept (nodup : chosen.Nodup) (d : Direction) :
    (ofRows (numberFrom 0 (chosen.map (a.keptArcs chosen)))).edgesOf d =
      EditableGraph.numbered 0 (FrozenGraph.positions chosen (a.keptEdges d chosen)) := by
  rw [edgesOf, entries, ofRows, entriesFrom_numberFrom, entriesFrom_kept nodup,
    EditableGraph.numbered, FrozenGraph.positions, keptEdges, List.map_map, List.map_map,
    List.zipIdx_map, List.zipIdx_map, List.map_map, List.map_map]
  cases d <;> rfl

theorem induced_of_choosable (inside : ∀ v ∈ chosen, v < a.vertexCount) (nodup : chosen.Nodup)
    (d : Direction) : a.induced chosen =
      .ok (ofRows (numberFrom 0 (chosen.map (a.keptArcs chosen))),
        (a.keptEdges d chosen).map Edge.id) := by
  have parents : (chosen.map (a.keptArcs chosen)).flatten.map Arc.edge =
      (a.keptEdges d chosen).map Edge.id := by
    rw [← map_arc_entriesFrom 0, entriesFrom_kept nodup, keptEdges, List.map_map, List.map_map,
      List.map_map]
    cases d <;> rfl
  rcases checkChoice_cases a.vertexCount chosen with ⟨passed, -⟩ | ⟨f, -, refused⟩
  · rw [induced, passed, ← parents]
  · exact absurd ⟨inside, nodup⟩ refused.not_all

end Adjacency

/-- A subgraph on chosen vertices: local edges stand one by one for the places of the edges among
them. -/
structure Subgraph.InducedIn (s : Subgraph) (g : FrozenGraph) (chosen : List Nat) : Prop where
  vertices : s.vertices = chosen
  direction : s.graph.direction = g.direction
  multigraph : s.graph.multigraph = g.multigraph
  lists : s.Lists s.parentEdges
  places : ∃ places : List Nat, places.Nodup ∧
    (∀ i, i ∈ places ↔ ∃ e, g.edges[i]? = some e ∧ e.Among chosen) ∧
    s.parentEdges.map some = places.map (g.edges[·]?)

namespace FrozenGraph

variable {g : FrozenGraph}

theorem Reachable.primary_edgesOf (h : g.Reachable) :
    (g.primary.edgesOf g.direction).Perm g.edges := by
  have own := (h.view g.direction).2.2
  rwa [FrozenGraph.view, cached, if_pos rfl, Option.getD_some] at own

theorem Reachable.reachable_primary (h : g.Reachable) : g.primary.Reachable :=
  Adjacency.reachable_iff.2 h.wellFormed

/-- What a choice that passes cuts out. -/
def cutOut (g : FrozenGraph) (chosen : List Nat) : Subgraph :=
  let kept := chosen.map (g.primary.keptArcs chosen)
  ⟨ofAdjacency (.ofRows (Adjacency.numberFrom 0 kept)) g.direction (some g.multigraph), chosen,
    (g.primary.keptEdges g.direction chosen).map Edge.id⟩

theorem inducedBy_of_choosable {chosen : List Nat} (inside : ∀ v ∈ chosen, v < g.vertexCount)
    (nodup : chosen.Nodup) : g.inducedBy chosen = .ok (g.cutOut chosen) := by
  rw [inducedBy, Adjacency.induced_of_choosable inside nodup g.direction, cutOut]

theorem inducedIn_cutOut (h : g.Reachable) {chosen : List Nat}
    (inside : ∀ v ∈ chosen, v < g.vertexCount) (nodup : chosen.Nodup) :
    (g.cutOut chosen).InducedIn g chosen := by
  have kept := Adjacency.keptEdges_perm (a := g.primary) nodup g.direction
  have among := kept.trans (h.primary_edgesOf.filter fun e => Edge.Among chosen e)
  have reachable : (g.cutOut chosen).graph.Reachable :=
    .ofAdjacency (.induced h.reachable_primary
      (Adjacency.induced_of_choosable inside nodup g.direction)) ..
  have byId := edgesById_of_numbered
    (reachable.primary_edgesOf.symm.trans (.of_eq (Adjacency.edgesOf_kept nodup g.direction)))
  have lists : (g.cutOut chosen).Lists (g.primary.keptEdges g.direction chosen) := by
    refine lists_of_edgesById (fun e he => ?_) ?_ byId
    · exact of_decide_eq_true (List.mem_filter.1 (kept.mem_iff.1 he)).2
    · exact (Adjacency.length_numberFrom ..).trans (List.length_map _)
  refine ⟨rfl, rfl, rfl, ?_, ?_⟩
  · rwa [lists.parentEdges_eq]
  · rw [lists.parentEdges_eq]
    exact exists_places among

theorem inducedBy_cases (h : g.Reachable) (chosen : List Nat) :
    (∃ s, g.inducedBy chosen = .ok s ∧ ((∀ v ∈ chosen, v < g.vertexCount) ∧ chosen.Nodup) ∧
      s.InducedIn g chosen) ∨
    ∃ f, g.inducedBy chosen = .error f ∧ ¬((∀ v ∈ chosen, v < g.vertexCount) ∧ chosen.Nodup) ∧
      Adjacency.ChoiceRefused g.vertexCount chosen f := by
  rcases Adjacency.checkChoice_cases g.vertexCount chosen with
    ⟨-, inside, nodup⟩ | ⟨f, failed, refused⟩
  · exact .inl ⟨_, inducedBy_of_choosable inside nodup, ⟨inside, nodup⟩,
      inducedIn_cutOut h inside nodup⟩
  · refine .inr ⟨f, ?_, refused.not_all, refused⟩
    rw [inducedBy, Adjacency.induced, show g.primary.vertexCount = g.vertexCount from rfl, failed]

/-- A graph cuts out exactly the choices of pairwise distinct vertices that it has, and what it cuts
out is the subgraph induced on them. Read off the compressed arrays in bounds, with the positions in
a hash map and the arrays growing together, it comes out the same. -/
theorem inducedBy_cuts_out (h : g.Reachable) (chosen : List Nat) :
    ((∃ s, g.inducedBy chosen = .ok s) ↔
      (∀ v ∈ chosen, v < g.vertexCount) ∧ chosen.Nodup) ∧
    (∀ s, g.inducedBy chosen = .ok s → s.InducedIn g chosen) ∧
    (∀ f, g.inducedBy chosen = .error f → Adjacency.ChoiceRefused g.vertexCount chosen f) ∧
    g.primary.arrays.induced? chosen =
      some ((g.primary.induced chosen).map fun (sub, parents) => (sub.arrays, parents)) := by
  have decided := decided_of_cases (inducedBy_cases h chosen)
  exact ⟨decided.1, decided.2.1, decided.2.2, Adjacency.induced?_arrays ..⟩

/-- Vertices 2, 0 and 1 of four, in this order, from rows by destination: the edges with id 7 run
parallel, 5 is a loop, 3 and 4 lead outside. -/
theorem inducedBy_cuts_out_parallel :
    ∃ g s, ofArrays [0, 3, 3, 4, 5] [3, 2, 2, 2, 0] [4, 7, 7, 5, 3] .incoming none = .ok g ∧
      g.inducedBy [2, 0, 1] = .ok s ∧ s.InducedIn g [2, 0, 1] ∧
      s.graph.primary.rows = [[⟨0, 0⟩], [⟨0, 1⟩, ⟨0, 2⟩], []] ∧ s.edges = [5, 7, 7] := by
  have reachable : Reachable (ofAdjacency
      ⟨[[⟨3, 4⟩, ⟨2, 7⟩, ⟨2, 7⟩], [], [⟨2, 5⟩], [⟨0, 3⟩]], false⟩ .incoming none) :=
    .ofAdjacency (Adjacency.reachable_iff.2 ⟨by decide, by decide⟩) .incoming none
  obtain ⟨-, cut, -⟩ := inducedBy_cuts_out reachable [2, 0, 1]
  exact ⟨_, _, rfl, rfl, cut _ rfl, rfl, rfl⟩

end FrozenGraph

end GraphRelay
