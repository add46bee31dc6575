import GraphRelay.Proofs.Graph.Edges
import GraphRelay.Proofs.Graph.WalkCounts

/-!
# Expansions count walks

Expanded over several hops a vertex is listed once for every walk that leads to it. What is read along
the out-edges from one end is read along the in-edges from the other, and an expansion of several hops
is taken up again where a shorter one ended.
-/
namespace GraphRelay

/-- Walks along the rows of direction `d`: the in-edges are taken against their direction. -/
def walkCountAlong (d : Direction) (edges : List Edge) (r u w : Nat) : Nat :=
  match d with
  | .outgoing => walkCount edges r u w
  | .incoming => walkCount edges r w u

theorem walkCountAlong_zero (d : Direction) (edges : List Edge) (u w : Nat) :
    walkCountAlong d edges 0 u w = if u = w then 1 else 0 := by
  cases d with
  | outgoing => exact walkCount_zero edges u w
  | incoming => simp only [walkCountAlong, walkCount_zero, eq_comm (a := u)]

theorem walkCountAlong_succ (d : Direction) (edges : List Edge) (r u w : Nat) :
    walkCountAlong d edges (r + 1) u w = ((edges.filter fun e => (e.entryOf d).row = u).map
      fun e => walkCountAlong d edges r (e.entryOf d).col w).sum := by
  cases d with
  | outgoing => exact walkCount_succ edges r u w
  | incoming => exact walkCount_succ_last edges r w u

namespace FrozenGraph

theorem walkEnds_add (a : Adjacency) (r₁ r₂ : Nat) (frontier : List Nat) :
    walkEnds a (r₁ + r₂) frontier = walkEnds a r₂ (walkEnds a r₁ frontier) := by
  induction r₁ generalizing frontier with
  | zero => rw [Nat.zero_add, walkEnds]
  | succ r₁ ih => rw [Nat.succ_add, walkEnds, ih, walkEnds]

/-- Each vertex of a frontier is expanded on its own. -/
theorem walkEnds_eq_flatMap (a : Adjacency) (r : Nat) (frontier : List Nat) :
    walkEnds a r frontier = frontier.flatMap fun u => walkEnds a r [u] := by
  induction r generalizing frontier with
  | zero => simp [walkEnds]
  | succ r ih =>
    simp only [walkEnds]
    rw [ih (step a frontier), step, List.flatMap_assoc]
    refine List.flatMap_congr fun u _ => ?_
    rw [ih (step a [u]), step, List.flatMap_singleton]

theorem lt_of_mem_walkEnds {a : Adjacency} (h : a.WellFormed) {r : Nat} {frontier : List Nat}
    (inside : ∀ u ∈ frontier, u < a.vertexCount) :
    ∀ u ∈ walkEnds a r frontier, u < a.vertexCount := by
  induction r generalizing frontier with
  | zero => exact inside
  | succ r ih =>
    refine ih fun u hu => ?_
    obtain ⟨v, -, hu⟩ := List.mem_flatMap.1 hu
    obtain ⟨arc, harc, rfl⟩ := List.mem_map.1 hu
    exact h.neighbor_lt _ (Adjacency.row_mem_of_mem harc) _ harc

variable {g : FrozenGraph}

/-- The row of a vertex lists the other ends of the edges at it. -/
theorem Reachable.neighbors_perm (h : g.Reachable) (d : Direction) (u : Nat) :
    (((g.view d).row u).map Arc.neighbor).Perm
      ((g.edges.filter fun e => (e.entryOf d).row = u).map fun e => (e.entryOf d).col) := by
  have entries : ((g.view d).entries.filter (·.row = u)).Perm
      ((g.edges.map (Edge.entryOf d)).filter (·.row = u)) := by
    have same := (h.view d).2.2.map (Edge.entryOf d)
    rw [Adjacency.edgesOf, Entry.map_entryOf_edgeOf] at same
    exact same.filter _
  have cols := entries.map Entry.col
  rw [List.filter_map, List.map_map] at cols
  rw [← Adjacency.arcsOf_entries, Adjacency.arcsOf, List.map_map]
  exact cols

theorem Reachable.count_walkEnds (h : g.Reachable) (d : Direction) (r w : Nat)
    (frontier : List Nat) : (walkEnds (g.view d) r frontier).count w =
      (frontier.map fun u => walkCountAlong d g.edges r u w).sum := by
  induction r generalizing frontier with
  | zero =>
    simp only [walkEnds, walkCountAlong_zero, ← countP_eq_sum]
    rfl
  | succ r ih =>
    have row (u : Nat) : ((((g.view d).row u).map Arc.neighbor).map fun x =>
        walkCountAlong d g.edges r x w).sum = walkCountAlong d g.edges (r + 1) u w := by
      rw [walkCountAlong_succ, ((h.neighbors_perm d u).map _).sum_nat, List.map_map]
      rfl
    rw [walkEnds, ih, step, List.map_flatMap, List.flatMap_def, List.sum_flatten, List.map_map]
    simp only [Function.comp_def, row]

/-- The ends that are listed at all are those that a walk leads to. -/
theorem Reachable.mem_walkEnds_iff (h : g.Reachable) (r v w : Nat) :
    w ∈ walkEnds (g.view .outgoing) r [v] ↔ Walk g.edges r v w := by
  have counted := h.count_walkEnds .outgoing r w [v]
  simp only [walkCountAlong, List.map_singleton, List.sum_singleton] at counted
  rw [← walkCount_pos_iff, ← counted, List.count_pos_iff]

theorem reach_of_inside {d : Direction} {v r : Nat} (hv : v < g.vertexCount) (hr : 0 < r) :
    g.reach d v r = .ok (walkEnds (g.view d) r [v]) := by
  rw [reach, checkVertex, if_pos hv]
  exact if_neg (Nat.ne_of_gt hr)

theorem reach_refused_iff (g : FrozenGraph) (d : Direction) (v r : Nat) :
    (∃ f, g.reach d v r = .error f ∧ f.kind = .query) ↔ g.vertexCount ≤ v ∨ r = 0 := by
  by_cases hv : v < g.vertexCount
  · by_cases hr : r = 0
    · rw [reach, checkVertex, if_pos hv]
      exact iff_of_true ⟨.zeroRadius, if_pos hr, rfl⟩ (.inr hr)
    · rw [reach_of_inside hv (Nat.pos_of_ne_zero hr)]
      exact iff_of_false (by simp) (by omega)
  · rw [reach, checkVertex, if_neg hv]
    exact iff_of_true ⟨_, rfl, rfl⟩ (.inl (Nat.le_of_not_lt hv))

/-- An expansion is taken up again at each vertex where a shorter one ended. -/
theorem Reachable.reach_add (h : g.Reachable) (d : Direction) {v r₁ r₂ : Nat}
    (hv : v < g.vertexCount) (h₁ : 0 < r₁) (h₂ : 0 < r₂) :
    ∃ near far, g.reach d v r₁ = .ok near ∧ near.mapM (g.reach d · r₂) = .ok far ∧
      g.reach d v (r₁ + r₂) = .ok far.flatten := by
  obtain ⟨wellFormed, count, -⟩ := h.view d
  have start : ∀ u ∈ [v], u < (g.view d).vertexCount := by simpa [count] using hv
  have again : ∀ u ∈ walkEnds (g.view d) r₁ [v],
      g.reach d u r₂ = .ok (walkEnds (g.view d) r₂ [u]) := fun u hu =>
    reach_of_inside (count ▸ lt_of_mem_walkEnds wellFormed start u hu) h₂
  refine ⟨_, _, reach_of_inside hv h₁, mapM_ok again, ?_⟩
  rw [reach_of_inside hv (Nat.add_pos_left h₁ r₂), walkEnds_add, walkEnds_eq_flatMap,
    List.flatMap_def]

/-- Successors over several hops list an end once for each walk to it, and predecessors do so from the
other end. They are put together from those of fewer hops, and refused for a vertex that is not there
and for no hops at all. -/
theorem expansion_counts_walks (h : g.Reachable) :
    (∀ v w r, v < g.vertexCount → w < g.vertexCount → 0 < r →
      ∃ ends starts, g.successors v r = .ok ends ∧ g.predecessors w r = .ok starts ∧
        ends.count w = walkCount g.edges r v w ∧ starts.count v = walkCount g.edges r v w ∧
        (w ∈ ends ↔ Walk g.edges r v w)) ∧
    (∀ v r₁ r₂, v < g.vertexCount → 0 < r₁ → 0 < r₂ →
      ∃ near far, g.successors v r₁ = .ok near ∧ near.mapM (g.successors · r₂) = .ok far ∧
        g.successors v (r₁ + r₂) = .ok far.flatten) ∧
    (∀ v r, ((∃ f, g.successors v r = .error f ∧ f.kind = .query) ↔
        g.vertexCount ≤ v ∨ r = 0) ∧
      ((∃ f, g.predecessors v r = .error f ∧ f.kind = .query) ↔ g.vertexCount ≤ v ∨ r = 0)) := by
  refine ⟨fun v w r hv hw hr => ?_, fun v r₁ r₂ hv h₁ h₂ => h.reach_add .outgoing hv h₁ h₂,
    fun v r => ⟨reach_refused_iff g .outgoing v r, reach_refused_iff g .incoming v r⟩⟩
  refine ⟨_, _, reach_of_inside hv hr, reach_of_inside hw hr, ?_, ?_, h.mem_walkEnds_iff r v w⟩
  · simpa [walkCountAlong] using h.count_walkEnds .outgoing r w [v]
  · simpa [walkCountAlong] using h.count_walkEnds .incoming r v [w]

/-- Two edges from 0 to 1, one back and a loop at 1: six walks of three edges lead from 0 to 1. -/
theorem expansion_counts_parallel :
    Reachable (ofAdjacency ⟨[[⟨1, 0⟩, ⟨1, 1⟩], [⟨1, 2⟩, ⟨0, 3⟩]], false⟩ .outgoing none) ∧
    ∃ ends starts,
      successors (ofAdjacency ⟨[[⟨1, 0⟩, ⟨1, 1⟩], [⟨1, 2⟩, ⟨0, 3⟩]], false⟩ .outgoing none) 0 3 =
        .ok ends ∧
      predecessors (ofAdjacency ⟨[[⟨1, 0⟩, ⟨1, 1⟩], [⟨1, 2⟩, ⟨0, 3⟩]], false⟩ .outgoing none) 1 3 =
        .ok starts ∧
      ends.count 1 = 6 ∧ starts.count 0 = 6 := by
  have reachable :
      Reachable (ofAdjacency ⟨[[⟨1, 0⟩, ⟨1, 1⟩], [⟨1, 2⟩, ⟨0, 3⟩]], false⟩ .outgoing none) :=
    .ofAdjacency (Adjacency.reachable_iff.2 ⟨by decide, by decide⟩) .outgoing none
  have six : walkCount [⟨0, 1, 0⟩, ⟨0, 1, 1⟩, ⟨1, 1, 2⟩, ⟨1, 0, 3⟩] 3 0 1 = 6 := by decide
  obtain ⟨ends, starts, successors, predecessors, forth, back, -⟩ :=
    (expansion_counts_walks reachable).1 0 1 3 (by decide) (by decide) (by decide)
  exact ⟨reachable, ends, starts, successors, predecessors, forth.trans six, back.trans six⟩

end FrozenGraph

end GraphRelay
