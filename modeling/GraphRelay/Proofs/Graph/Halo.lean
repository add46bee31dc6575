import GraphRelay.Graph.Halo
import GraphRelay.Proofs.FirstOccurrence
import GraphRelay.Proofs.FrozenGraph.ParentEdges
import GraphRelay.Proofs.Graph.Edges
import GraphRelay.Proofs.Graph.Walks

/-!
# What a halo surrounds

Each hop meets the vertices one step farther from the seeds. After all hops exactly the vertices
within that distance are met and exactly the edges into the nearer ones are taken, each once.
-/
namespace GraphRelay

/-- An edge with the mark that both of its endpoints are seeds. -/
def Edge.marked (seeds : List Nat) (e : Edge) : Edge × Bool := (e, decide (e.Among seeds))

theorem marked_congr {seeds others : List Nat} (same : ∀ v, v ∈ seeds ↔ v ∈ others) :
    Edge.marked seeds = Edge.marked others := by
  funext e
  rw [Edge.marked, Edge.marked, decide_eq_decide.2 (among_congr same)]

theorem pairwise_lt_mergeSort {xs : List Nat} (nodup : xs.Nodup) :
    (xs.mergeSort fun u v => u ≤ v).Pairwise (· < ·) := by
  have ascending : (xs.mergeSort fun u v => u ≤ v).Pairwise (· ≤ ·) := pairwise_mergeSort_key id xs
  have distinct := (List.mergeSort_perm xs fun u v => u ≤ v).nodup_iff.2 nodup
  exact (ascending.and distinct).imp fun h => Nat.lt_of_le_of_ne h.1 h.2

/-- The vertices within `hops` edges of a seed and the edges taken on the way, each edge once. -/
structure Halo.Surrounds (halo : Halo) (g : Graph) (seeds : List Nat) (hops : Nat) : Prop where
  ascending : halo.sub.vertices.Pairwise (· < ·)
  mem_vertices : ∀ v, v ∈ halo.sub.vertices ↔ Within g.edges seeds hops v
  lists : halo.sub.Lists halo.sub.parentEdges
  taken : halo.sub.parentEdges.Perm (g.edges.filter fun e => Taken g.edges seeds hops e)
  innerVertices : halo.innerVertices = halo.sub.vertices.map fun v => decide (v ∈ seeds)
  innerEdges : halo.innerEdges = halo.sub.parentEdges.map fun e => decide (e.Among seeds)

theorem Halo.Surrounds.of_edges_perm {halo : Halo} {g other : Graph} {seeds : List Nat} {hops : Nat}
    (h : halo.Surrounds g seeds hops) (same : g.edges.Perm other.edges) :
    halo.Surrounds other seeds hops := by
  have mem (e : Edge) : e ∈ g.edges ↔ e ∈ other.edges := same.mem_iff
  refine ⟨h.ascending, fun v => ?_, h.lists, h.taken.trans ?_, h.innerVertices, h.innerEdges⟩
  · rw [h.mem_vertices, within_congr_edges mem]
  · simp only [taken_congr_edges mem]
    exact same.filter _

namespace Graph

theorem mem_newSources {met : List Nat} {edges : List Edge} {v : Nat} :
    v ∈ newSources met edges ↔ (∃ e ∈ edges, e.src = v) ∧ v ∉ met := by
  simp [newSources]

theorem nodup_newSources (met : List Nat) (edges : List Edge) : (newSources met edges).Nodup :=
  (nodup_eraseDups _).filter _

/-- What was met after `hops` hops, and what of it was met last. -/
structure Layer (g : Graph) (seeds : List Nat) (hops : Nat) (met frontier : List Nat) : Prop where
  met_nodup : met.Nodup
  frontier_nodup : frontier.Nodup
  mem_met : ∀ v, v ∈ met ↔ Within g.edges seeds hops v
  mem_frontier : ∀ v, v ∈ frontier ↔ AtDistance g.edges seeds hops v

variable {g : Graph} {seeds met frontier : List Nat} {hops k : Nat}

theorem Layer.start (nodup : seeds.Nodup) : Layer g seeds 0 seeds seeds where
  met_nodup := nodup
  frontier_nodup := nodup
  mem_met _ := within_zero.symm
  mem_frontier _ := atDistance_zero.symm

theorem Layer.edges_perm (layer : Layer g seeds k met frontier) (h : g.Reachable) :
    (frontier.flatMap g.edgesInto).Perm
      (g.edges.filter fun e => AtDistance g.edges seeds k e.dst) := by
  have last : (g.edges.filter fun e => e.dst ∈ frontier) =
      g.edges.filter fun e => AtDistance g.edges seeds k e.dst :=
    List.filter_congr fun e _ => by rw [decide_eq_decide, layer.mem_frontier]
  rw [← last]
  exact edgesInto_flatMap_perm h layer.frontier_nodup

theorem Layer.edges_append_perm (layer : Layer g seeds k met frontier) (h : g.Reachable) {m : Nat}
    (le : k ≤ m) {later : List Edge} (beyond : later.Perm (g.edges.filter fun e =>
      Within g.edges seeds m e.dst ∧ ¬ Within g.edges seeds k e.dst)) :
    (frontier.flatMap g.edgesInto ++ later).Perm (g.edges.filter fun e =>
      Within g.edges seeds m e.dst ∧ ∀ j < k, ¬ Within g.edges seeds j e.dst) := by
  have apart : ∀ e ∈ g.edges, decide (AtDistance g.edges seeds k e.dst) = true →
      decide (Within g.edges seeds m e.dst ∧ ¬ Within g.edges seeds k e.dst) = false := by
    intro e _ last
    rw [decide_eq_true_eq] at last
    exact decide_eq_false fun further => further.2 last.1
  have both := filter_or_perm apart
  simp only [← Bool.decide_or, atDistance_or_iff le] at both
  exact ((layer.edges_perm h).append beyond).trans both.symm

/-- A hop meets the next layer. -/
theorem Layer.next (layer : Layer g seeds k met frontier) (h : g.Reachable) :
    Layer g seeds (k + 1) (met ++ newSources met (frontier.flatMap g.edgesInto))
      (newSources met (frontier.flatMap g.edgesInto)) := by
  have found : ∀ v, v ∈ newSources met (frontier.flatMap g.edgesInto) ↔
      AtDistance g.edges seeds (k + 1) v := by
    intro v
    rw [mem_newSources, layer.mem_met]
    simp only [(layer.edges_perm h).mem_iff, List.mem_filter, decide_eq_true_eq]
    constructor
    · rintro ⟨⟨e, ⟨he, near⟩, rfl⟩, far⟩
      exact atDistance_succ.2 ⟨within_src he near.1, far⟩
    · intro new
      obtain ⟨e, he, rfl, last⟩ := exists_edge_of_atDistance_succ new
      exact ⟨⟨e, ⟨he, last⟩, rfl⟩, (atDistance_succ.1 new).2⟩
  refine ⟨?_, nodup_newSources .., fun v => ?_, found⟩
  · rw [List.nodup_append]
    refine ⟨layer.met_nodup, nodup_newSources .., fun u hu v hv => ?_⟩
    rintro rfl
    exact (mem_newSources.1 hv).2 hu
  · rw [List.mem_append, layer.mem_met, found, atDistance_succ]
    constructor
    · rintro (near | new)
      · exact near.mono (Nat.le_succ k)
      · exact new.1
    · intro near
      by_cases met : Within g.edges seeds k v
      · exact .inl met
      · exact .inr ⟨near, met⟩

/-- Where nothing is met any more, no vertex is farther away. -/
theorem Layer.stable (layer : Layer g seeds (k + 1) met []) (v : Nat)
    (near : Within g.edges seeds (k + 1) v) : Within g.edges seeds k v := by
  by_contra far
  exact List.not_mem_nil ((layer.mem_frontier v).2 (atDistance_succ.2 ⟨near, far⟩))

theorem halo_eq {taken : List Edge} {sub : FrozenGraph}
    (found : g.haloEdges seeds.eraseDups hops = .ok (met, taken.map (Edge.marked seeds)))
    (made : FrozenGraph.ofCoordinates (met.mergeSort fun u v => u ≤ v).length
      (taken.map fun e => (met.mergeSort fun u v => u ≤ v).idxOf e.src)
      (taken.map fun e => (met.mergeSort fun u v => u ≤ v).idxOf e.dst) none (some g.multigraph) =
        .ok sub) :
    g.halo seeds hops = .ok ⟨⟨sub, met.mergeSort fun u v => u ≤ v, taken.map Edge.id⟩,
      (met.mergeSort fun u v => u ≤ v).map fun v => decide (v ∈ seeds),
      taken.map fun e => decide (e.Among seeds)⟩ := by
  have edges : (taken.map (Edge.marked seeds)).map Prod.fst = taken := by
    rw [List.map_map]
    exact List.map_id taken
  rw [halo, distinct_eq]
  refine bind_ok_iff.2 ⟨_, found, ?_⟩
  dsimp only
  rw [edges]
  refine bind_ok_iff.2 ⟨sub, made, ?_⟩
  simp [pure, Except.pure, Edge.marked]

section Hops

variable (h : g.Reachable) (inside : ∀ s ∈ seeds, s < g.vertexCount)

include h inside

theorem Layer.inEdges (layer : Layer g seeds k met frontier) :
    g.inEdges frontier = .ok (frontier.flatMap g.edgesInto) :=
  inEdges_of_inside fun v hv =>
    ((layer.mem_frontier v).1 hv).1.lt inside fun _ he => (h.inside he).1

/-- Each of the hops left turns layer `k + 1` into the next. -/
theorem haloHops_eq (layer : Layer g seeds (k + 1) met frontier) :
    ∃ taken all, g.haloHops hops met frontier = .ok (taken, all) ∧
      taken.Perm (g.edges.filter fun e =>
        Within g.edges seeds (k + hops) e.dst ∧ ¬ Within g.edges seeds k e.dst) ∧
      all.Nodup ∧ ∀ v, v ∈ all ↔ Within g.edges seeds (k + 1 + hops) v := by
  induction hops generalizing k met frontier with
  | zero =>
    refine ⟨[], met, rfl, ?_, layer.met_nodup, layer.mem_met⟩
    rw [List.filter_eq_nil_iff.2]
    simp
  | succ hops ih =>
    rw [haloHops]
    split
    next none =>
      rw [List.isEmpty_iff.1 none] at layer
      have stable := layer.stable
      refine ⟨[], met, rfl, ?_, layer.met_nodup, fun v => ?_⟩
      · rw [List.filter_eq_nil_iff.2]
        simp [within_add_iff stable]
      · rw [layer.mem_met, Nat.add_assoc, within_add_iff stable, within_add_iff stable]
    next =>
      obtain ⟨later, all, rest, taken, nodup, mem⟩ := ih (layer.next h)
      rw [layer.inEdges h inside]
      refine ⟨_, all, bind_ok_iff.2 ⟨_, rfl, bind_ok_iff.2 ⟨_, rest, rfl⟩⟩, ?_, nodup, fun v => ?_⟩
      · have both := layer.edges_append_perm h (Nat.le_add_right (k + 1) hops) taken
        simpa only [forall_not_within_succ, Nat.add_right_comm k 1, ← Nat.add_assoc] using both
      · rw [mem, Nat.add_assoc (k + 1), Nat.add_comm 1]

theorem haloEdges_eq (nodup : seeds.Nodup) : ∃ (met : List Nat) (taken : List Edge),
    g.haloEdges seeds hops = .ok (met, taken.map (Edge.marked seeds)) ∧ met.Nodup ∧
      (∀ v, v ∈ met ↔ Within g.edges seeds hops v) ∧
      taken.Perm (g.edges.filter fun e => Taken g.edges seeds hops e) := by
  have start : Layer g seeds 0 seeds seeds := .start nodup
  have arriving := start.edges_perm h
  have marks : ((seeds.flatMap g.edgesInto).map fun e =>
      (e, (Std.HashSet.ofList seeds).contains e.src)) =
      (seeds.flatMap g.edgesInto).map (Edge.marked seeds) := by
    refine List.map_congr_left fun e he => ?_
    have last := of_decide_eq_true (List.mem_filter.1 (arriving.mem_iff.1 he)).2
    have hd : e.dst ∈ seeds := atDistance_zero.1 last
    simp [Edge.marked, Edge.Among, hd]
  cases hops with
  | zero =>
    have among := arriving.filter (Prod.snd ∘ Edge.marked seeds)
    rw [List.filter_filter] at among
    refine ⟨seeds, _, bind_ok_iff.2 ⟨_, start.inEdges h inside, ?_⟩, nodup,
      fun v => within_zero.symm, among.trans (.of_eq (List.filter_congr fun e _ => ?_))⟩
    · dsimp only
      rw [marks, List.filter_map]
      rfl
    · change (decide (e.Among seeds) && decide _) = _
      rw [← Bool.decide_and, decide_eq_decide, atDistance_zero]
      exact ⟨And.left, fun both => ⟨both, both.2⟩⟩
  | succ hops =>
    obtain ⟨later, all, rest, beyond, all_nodup, mem⟩ := haloHops_eq h inside (start.next h)
    have outer : (later.map fun e => (e, false)) = later.map (Edge.marked seeds) := by
      refine List.map_congr_left fun e he => ?_
      have far := of_decide_eq_true (List.mem_filter.1 (beyond.mem_iff.1 he)).2
      have hd : e.dst ∉ seeds := fun hd => far.2 (within_of_mem hd)
      simp [Edge.marked, Edge.Among, hd]
    refine ⟨all, seeds.flatMap g.edgesInto ++ later, bind_ok_iff.2 ⟨_, start.inEdges h inside,
      bind_ok_iff.2 ⟨_, rest, ?_⟩⟩, all_nodup, fun v => ?_, ?_⟩
    · dsimp only
      rw [marks, outer, ← List.map_append]
      rfl
    · rw [mem, Nat.zero_add, Nat.add_comm]
    · rw [Nat.zero_add] at beyond
      have both := start.edges_append_perm h (Nat.zero_le hops) beyond
      simp only [Nat.not_lt_zero, false_implies, implies_true, and_true] at both
      exact both

theorem exists_halo : ∃ halo, g.halo seeds hops = .ok halo ∧ halo.Surrounds g seeds hops := by
  have same : ∀ v, v ∈ seeds.eraseDups ↔ v ∈ seeds := fun v => List.mem_eraseDups
  have distinct_inside : ∀ s ∈ seeds.eraseDups, s < g.vertexCount :=
    fun s hs => inside s ((same s).1 hs)
  obtain ⟨met, taken, found, nodup, mem, perm⟩ :=
    @haloEdges_eq g seeds.eraseDups hops h distinct_inside (nodup_eraseDups seeds)
  rw [marked_congr same] at found
  simp only [within_congr same, ← (List.mergeSort_perm met fun u v => u ≤ v).mem_iff] at mem
  simp only [taken_congr same] at perm
  have near : ∀ e ∈ taken, e.src ∈ met.mergeSort (fun u v => u ≤ v) ∧
      e.dst ∈ met.mergeSort fun u v => u ≤ v := by
    intro e he
    obtain ⟨listed, took⟩ := List.mem_filter.1 (perm.mem_iff.1 he)
    rw [mem, mem]
    exact (of_decide_eq_true took).within listed
  obtain ⟨sub, made, lists⟩ := FrozenGraph.lists_positions near (some g.multigraph)
  refine ⟨_, halo_eq found made, pairwise_lt_mergeSort nodup, mem, ?_, ?_, rfl, ?_⟩
  · rwa [lists.parentEdges_eq]
  · rwa [lists.parentEdges_eq]
  · rw [lists.parentEdges_eq]

end Hops

theorem halo_eq_error {f : Fault} (refused : g.inEdges seeds.eraseDups = .error f) :
    g.halo seeds hops = .error f := by
  rw [halo, distinct_eq]
  exact bind_error_iff.2 (.inl (bind_error_iff.2 (.inl refused)))

theorem halo_refused (outside : ∃ s ∈ seeds, g.vertexCount ≤ s) :
    ∃ f, g.halo seeds hops = .error f ∧ f.kind = .query := by
  obtain ⟨s, hs, hle⟩ := outside
  obtain ⟨f, refused, kind⟩ :=
    @inEdges_of_outside g seeds.eraseDups ⟨s, List.mem_eraseDups.2 hs, hle⟩
  exact ⟨f, halo_eq_error refused, kind⟩

/-- A halo is exactly the surroundings of its seeds, and only a seed that is no vertex prevents
it. -/
theorem halo_surrounds (h : g.Reachable) (seeds : List Nat) (hops : Nat) :
    ((∀ s ∈ seeds, s < g.vertexCount) →
      ∃ halo, g.halo seeds hops = .ok halo ∧ halo.Surrounds g seeds hops) ∧
    ((∃ s ∈ seeds, g.vertexCount ≤ s) →
      ∃ f, g.halo seeds hops = .error f ∧ f.kind = .query) :=
  ⟨fun inside => exists_halo h inside, halo_refused⟩

/-- A chain `4 -> 3 -> 1 -> 2` and a cycle between 0 and 2, one hop around 1 and 2. -/
theorem halo_surrounds_two :
    (∃ halo, (frozen ⟨⟨[[⟨2, 0⟩], [⟨2, 1⟩], [⟨0, 4⟩], [⟨1, 2⟩], [⟨3, 3⟩]], true⟩, .outgoing, none,
        false, 64⟩).halo [2, 1, 2] 1 = .ok halo ∧
      halo.Surrounds (frozen ⟨⟨[[⟨2, 0⟩], [⟨2, 1⟩], [⟨0, 4⟩], [⟨1, 2⟩], [⟨3, 3⟩]], true⟩, .outgoing,
        none, false, 64⟩) [2, 1, 2] 1 ∧
      (∀ v < 4, v ∈ halo.sub.vertices) ∧ 4 ∉ halo.sub.vertices) ∧
    ∃ f, (frozen ⟨⟨[[⟨2, 0⟩], [⟨2, 1⟩], [⟨0, 4⟩], [⟨1, 2⟩], [⟨3, 3⟩]], true⟩, .outgoing, none,
      false, 64⟩).halo [2, 5] 1 = .error f ∧ f.kind = .query := by
  have adjacency : Adjacency.Reachable
      ⟨[[⟨2, 0⟩], [⟨2, 1⟩], [⟨0, 4⟩], [⟨1, 2⟩], [⟨3, 3⟩]], true⟩ :=
    Adjacency.reachable_iff.2 ⟨by decide, by decide⟩
  have reachable := Reachable.frozen (.ofAdjacency adjacency .outgoing (some false))
  constructor
  · obtain ⟨halo, made, surrounds⟩ := (halo_surrounds reachable [2, 1, 2] 1).1 (by decide)
    refine ⟨halo, made, surrounds, fun v hv => (surrounds.mem_vertices v).2 ?_, fun far => ?_⟩
    · revert v
      decide
    · exact absurd ((surrounds.mem_vertices 4).1 far) (by decide)
  · exact (halo_surrounds reachable [2, 5] 1).2 ⟨5, by decide, by decide⟩

end Graph

end GraphRelay
