import GraphRelay.Distinct
import GraphRelay.Proofs.Graph.PairCounts
import Mathlib.Data.List.Destutter

/-!
# Both directions of every pair

A graph is made bidirected in two ways. The editable result takes the unordered pairs in ascending
order, sorted and rid of repetitions, and gives each as many edges in both directions as the fuller
one has. The frozen result gives every vertex its edges from each neighbor, which a seen-set discovers.
Both come to the same number of edges for every ordered pair.
-/
namespace GraphRelay

/-- A block that only one key contributes to. -/
theorem count_flatMap_of_single {ι α : Type} [DecidableEq ι] [BEq α] {keys : List ι}
    (nodup : keys.Nodup) {f : ι → List α} {x : α} {k : ι}
    (other : ∀ j ∈ keys, j ≠ k → (f j).count x = 0) :
    (keys.flatMap f).count x = if k ∈ keys then (f k).count x else 0 := by
  induction keys with
  | nil => rfl
  | cons j keys ih =>
    rw [List.nodup_cons] at nodup
    rw [List.forall_mem_cons] at other
    rw [List.flatMap_cons, List.count_append, ih nodup.2 other.2]
    by_cases here : j = k
    · subst here
      simp [nodup.1]
    · have away : ¬k = j := fun same => here same.symm
      simp [other.1 here, away]

namespace Graph

theorem pairLE_iff {x y : Nat × Nat} :
    pairLE x y = true ↔ x.1 < y.1 ∨ x.1 = y.1 ∧ x.2 ≤ y.2 := by
  simp [pairLE]

theorem pairLE_trans (x y z : Nat × Nat) (hxy : pairLE x y = true) (hyz : pairLE y z = true) :
    pairLE x z = true := by
  rw [pairLE_iff] at hxy hyz ⊢
  omega

theorem pairLE_total (x y : Nat × Nat) : (pairLE x y || pairLE y x) = true := by
  rw [Bool.or_eq_true, pairLE_iff, pairLE_iff]
  omega

theorem pairLE_antisymm {x y : Nat × Nat} (hxy : pairLE x y = true) (hyx : pairLE y x = true) :
    x = y := by
  rw [pairLE_iff] at hxy hyx
  ext <;> omega

instance : Std.Antisymm fun x y : Nat × Nat => pairLE x y = true := ⟨fun _ _ => pairLE_antisymm⟩

/-- The endpoints of an edge without its direction. -/
def unordered (p : Nat × Nat) : Nat × Nat := (min p.1 p.2, max p.1 p.2)

/-- A pair with the smaller endpoint first. -/
def upward (p : Nat × Nat) : Nat × Nat := if p.1 ≤ p.2 then p else (p.2, p.1)

theorem upward_eq (p : Nat × Nat) : upward p = unordered p := by
  rw [upward, unordered]
  split <;> ext <;> simp <;> omega

theorem unordered_eq_iff {p : Nat × Nat} {u v : Nat} :
    unordered p = unordered (u, v) ↔ p = (u, v) ∨ p = (v, u) := by
  obtain ⟨a, b⟩ := p
  simp only [unordered, Prod.mk.injEq]
  omega

theorem unordered_of_le {p : Nat × Nat} (h : p.1 ≤ p.2) : unordered p = p := by
  rw [unordered, Nat.min_eq_left h, Nat.max_eq_right h]

variable {pairs : List (Nat × Nat)}

theorem unorderedPairs_eq (pairs : List (Nat × Nat)) :
    unorderedPairs pairs = ((pairs.map unordered).mergeSort pairLE).eraseDups := rfl

theorem mem_unorderedPairs {p : Nat × Nat} :
    p ∈ unorderedPairs pairs ↔ ∃ q ∈ pairs, unordered q = p := by
  rw [unorderedPairs_eq, List.mem_eraseDups, List.mem_mergeSort, List.mem_map]

theorem nodup_unorderedPairs (pairs : List (Nat × Nat)) : (unorderedPairs pairs).Nodup :=
  nodup_eraseDups _

theorem pairwise_unorderedPairs (pairs : List (Nat × Nat)) :
    (unorderedPairs pairs).Pairwise (pairLE · · = true) :=
  (discovers_eraseDups _).pairwise (List.pairwise_mergeSort pairLE_trans pairLE_total _)

theorem le_of_mem_unorderedPairs {p : Nat × Nat} (h : p ∈ unorderedPairs pairs) : p.1 ≤ p.2 := by
  obtain ⟨q, -, rfl⟩ := mem_unorderedPairs.1 h
  exact Nat.le_trans (Nat.min_le_left ..) (Nat.le_max_left ..)

/-- Sorted in any manner and rid of neighbors that are equal, the same pairs come out. -/
theorem destutter_mergeSort {keys : List (Nat × Nat)} (same : ∀ p, p ∈ keys ↔ p ∈ pairs) :
    ((keys.map upward).mergeSort pairLE).destutter (· ≠ ·) = unorderedPairs pairs := by
  have sorted := List.pairwise_mergeSort pairLE_trans pairLE_total (keys.map upward)
  rw [sorted.destutter_eq_dedup]
  have members : ((keys.map upward).mergeSort pairLE).dedup.Perm (unorderedPairs pairs) := by
    refine (List.perm_ext_iff_of_nodup (List.nodup_dedup _) (nodup_unorderedPairs _)).2 fun p => ?_
    rw [List.mem_dedup, List.mem_mergeSort, List.mem_map, mem_unorderedPairs]
    simp only [same, upward_eq]
  exact members.eq_of_pairwise (fun _ _ _ _ => pairLE_antisymm)
    (sorted.sublist (List.dedup_sublist _)) (pairwise_unorderedPairs _)

theorem bothWays_comm (pairs : List (Nat × Nat)) (u v : Nat) :
    bothWays pairs u v = bothWays pairs v u := Nat.max_comm ..

theorem bothWays_eq_zero {u v : Nat} (h : (u, v) ∉ pairs) (h' : (v, u) ∉ pairs) :
    bothWays pairs u v = 0 := by
  rw [bothWays, List.count_eq_zero.2 h, List.count_eq_zero.2 h', Nat.max_self]

theorem unordered_of_mem_bothWaysPairs {p : Nat × Nat} {u v : Nat}
    (h : p ∈ bothWaysPairs pairs u v) : unordered p = unordered (u, v) := by
  rw [unordered_eq_iff]
  rcases List.mem_append.1 h with forth | back
  · exact .inl (List.eq_of_mem_replicate forth)
  · split at back
    · exact absurd back List.not_mem_nil
    · exact .inr (List.eq_of_mem_replicate back)

theorem count_bothWaysPairs (u v : Nat) :
    (bothWaysPairs pairs u v).count (u, v) = bothWays pairs u v ∧
      (bothWaysPairs pairs u v).count (v, u) = bothWays pairs u v := by
  by_cases loop : u = v
  · subst loop
    simp [bothWaysPairs]
  · have back : ¬v = u := fun same => loop same.symm
    simp [bothWaysPairs, List.count_append, List.count_replicate, loop, back]

/-- The pairs that the editable result lists. -/
def emitted (pairs : List (Nat × Nat)) : List (Nat × Nat) :=
  (unorderedPairs pairs).flatMap fun (u, v) => bothWaysPairs pairs u v

theorem count_emitted (u v : Nat) : (emitted pairs).count (u, v) = bothWays pairs u v := by
  have other : ∀ p ∈ unorderedPairs pairs, p ≠ unordered (u, v) →
      (bothWaysPairs pairs p.1 p.2).count (u, v) = 0 := by
    intro p hp away
    refine List.count_eq_zero.2 fun copy => away ?_
    rw [unordered_of_mem_bothWaysPairs copy, unordered_of_le (le_of_mem_unorderedPairs hp)]
  have own : (bothWaysPairs pairs (unordered (u, v)).1 (unordered (u, v)).2).count (u, v) =
      bothWays pairs u v := by
    rcases Nat.le_total u v with le | le
    · rw [unordered_of_le le]
      exact (count_bothWaysPairs u v).1
    · have turned : unordered (u, v) = (v, u) :=
        (unordered_eq_iff.2 (.inr rfl)).symm.trans (unordered_of_le (p := (v, u)) le)
      rw [turned, bothWays_comm]
      exact (count_bothWaysPairs v u).2
  rw [emitted, count_flatMap_of_single (nodup_unorderedPairs pairs) other, own]
  split
  · rfl
  next none =>
  rw [mem_unorderedPairs] at none
  refine (bothWays_eq_zero (fun listed => none ⟨_, listed, rfl⟩) fun listed =>
    none ⟨_, listed, ?_⟩).symm
  exact unordered_eq_iff.2 (.inr rfl)

/-- By ascending unordered pairs, of each the edges from the smaller endpoint first. -/
def EmittedLE (p q : Nat × Nat) : Prop :=
  pairLE (unordered p) (unordered q) = true ∧ (unordered p = unordered q → p.1 ≤ q.1)

theorem pairwise_bothWaysPairs {u v : Nat} (le : u ≤ v) :
    (bothWaysPairs pairs u v).Pairwise EmittedLE := by
  have alike : ∀ {p q}, unordered p = unordered q → p.1 ≤ q.1 → EmittedLE p q := by
    intro p q same le
    rw [EmittedLE, same]
    exact ⟨pairLE_iff.2 (.inr ⟨rfl, Nat.le_refl _⟩), fun _ => le⟩
  rw [bothWaysPairs, List.pairwise_append, List.pairwise_replicate]
  refine ⟨.inr (alike rfl (Nat.le_refl _)), ?_, fun p hp q hq => ?_⟩
  · split
    · exact .nil
    · exact List.pairwise_replicate.2 (.inr (alike rfl (Nat.le_refl _)))
  · obtain rfl := List.eq_of_mem_replicate hp
    split at hq
    · exact absurd hq List.not_mem_nil
    · obtain rfl := List.eq_of_mem_replicate hq
      exact alike (unordered_eq_iff.2 (.inr rfl)) le

theorem pairwise_emitted (pairs : List (Nat × Nat)) : (emitted pairs).Pairwise EmittedLE := by
  rw [emitted, List.pairwise_flatMap]
  refine ⟨fun p hp => pairwise_bothWaysPairs (le_of_mem_unorderedPairs hp), ?_⟩
  refine ((pairwise_unorderedPairs pairs).and (nodup_unorderedPairs pairs)).imp_of_mem ?_
  rintro p q hp hq ⟨le, away⟩ x hx y hy
  have hx' := unordered_of_mem_bothWaysPairs hx
  have hy' := unordered_of_mem_bothWaysPairs hy
  rw [unordered_of_le (le_of_mem_unorderedPairs hp)] at hx'
  rw [unordered_of_le (le_of_mem_unorderedPairs hq)] at hy'
  rw [EmittedLE, hx', hy']
  exact ⟨le, fun same => absurd same away⟩

variable {g : Graph}

theorem bothWays_eq (h : g.Reachable) (u v : Nat) :
    bothWays g.pairs u v = max (g.pairCount u v) (g.pairCount v u) := by
  rw [bothWays, count_pairs h, count_pairs h]

theorem count_bothWaysInto (preds succs : List Nat) (u v : Nat) :
    (bothWaysInto pairs u preds succs).count (v, u) =
      if v ∈ preds ∨ v ∈ succs then bothWays pairs u v else 0 := by
  have other : ∀ w ∈ (preds ++ succs).eraseDups, w ≠ v →
      (List.replicate (bothWays pairs u w) (w, u)).count (v, u) = 0 := by
    intro w _ away
    simp [List.count_replicate, away]
  rw [bothWaysInto, count_flatMap_of_single (nodup_eraseDups _) other, List.count_replicate_self]
  simp only [List.mem_eraseDups, List.mem_append]

theorem count_bothWaysEdges (h : g.Reachable) (u v : Nat) :
    (bothWaysEdges g).count (u, v) = bothWays g.pairs u v := by
  have other : ∀ w ∈ List.range g.vertexCount, w ≠ v → (bothWaysInto g.pairs w
      (g.neighborRow .incoming w) (g.neighborRow .outgoing w)).count (u, v) = 0 := by
    intro w _ away
    exact List.count_eq_zero.2 fun copy => away (mem_bothWaysInto copy).2.symm
  have neighbors : u ∈ g.neighborRow .incoming v ∨ u ∈ g.neighborRow .outgoing v ↔
      (u, v) ∈ g.pairs ∨ (v, u) ∈ g.pairs := or_congr (mem_predecessors h) (mem_successors h)
  rw [bothWaysEdges_eq h, count_flatMap_of_single List.nodup_range other, count_bothWaysInto,
    bothWays_comm]
  by_cases near : (u, v) ∈ g.pairs ∨ (v, u) ∈ g.pairs
  · have inside : v < g.vertexCount := by
      rcases near with listed | listed
      · obtain ⟨e, he, -, rfl⟩ := (mem_pairs h).1 listed
        exact (h.inside he).2
      · obtain ⟨e, he, rfl, -⟩ := (mem_pairs h).1 listed
        exact (h.inside he).1
    rw [if_pos (List.mem_range.2 inside), if_pos (neighbors.2 near)]
  · rw [if_neg (neighbors.not.2 near)]
    rw [not_or] at near
    rw [bothWays_eq_zero near.1 near.2, ite_self]

/-- The number of edges that either direction between two vertices gets by the counts. -/
def fuller (counts : Std.HashMap (Nat × Nat) Nat) (u v : Nat) : Nat :=
  max (counts.getD (u, v) 0) (counts.getD (v, u) 0)

theorem fuller_eq {counts : Std.HashMap (Nat × Nat) Nat} (h : Counts counts pairs) (u v : Nat) :
    fuller counts u v = bothWays pairs u v := by
  rw [fuller, h.getD, h.getD, bothWays]

/-- The edges into a vertex by the counts. -/
def edgesBothWays (g : Graph) (counts : Std.HashMap (Nat × Nat) Nat) (u : Nat) :
    Except Fault (List (Nat × Nat)) := do
  let preds ← g.predecessors u
  let succs ← g.successors u
  pure ((distinct (preds ++ succs)).flatMap fun v => List.replicate (fuller counts u v) (v, u))

/-- The frozen result, vertex by vertex. -/
def bidirectFrozen (g : Graph) : Except Fault FrozenGraph := do
  let counts ← g.countPairs
  let found ← (List.range g.vertexCount).mapM (g.edgesBothWays counts)
  FrozenGraph.ofCoordinates g.vertexCount (found.flatten.map Prod.fst)
    (found.flatten.map Prod.snd) none (some g.multigraph)

theorem bidirectFrozen_eq (h : g.Reachable) : g.bidirectFrozen = g.bidirectedFrozen := by
  obtain ⟨counts, counted, same⟩ := exists_countPairs h
  have each : ∀ u ∈ List.range g.vertexCount, g.edgesBothWays counts u = .ok
      (bothWaysInto g.pairs u (g.neighborRow .incoming u) (g.neighborRow .outgoing u)) := by
    intro u hu
    have inside := List.mem_range.1 hu
    simp only [edgesBothWays, predecessors_of_lt inside, successors_of_lt inside, fuller_eq same,
      distinct_eq]
    rfl
  have found := mapM_ok each
  have all := bothWaysEdges_eq h
  rw [List.flatMap] at all
  simp only [bidirectFrozen, counted, bind, Except.bind] at found ⊢
  rw [found]
  dsimp only
  rw [← all]
  rfl

/-- The pairs to add by the counts, whose keys come in any order. -/
def emittedBy (iterate : Std.HashMap (Nat × Nat) Nat → List (Nat × Nat))
    (counts : Std.HashMap (Nat × Nat) Nat) : List (Nat × Nat) :=
  let sorted := ((iterate counts).map upward).mergeSort pairLE
  (sorted.destutter (· ≠ ·)).flatMap fun (u, v) =>
    let k := fuller counts u v
    List.replicate k (u, v) ++ if u = v then [] else List.replicate k (v, u)

/-- The editable result, edge by edge. -/
def bidirectEditable (iterate : Std.HashMap (Nat × Nat) Nat → List (Nat × Nat)) (g : Graph) :
    Except Fault EditableGraph := do
  let counts ← g.countPairs
  let start := (EditableGraph.empty g.multigraph).addVertices g.vertexCount
  match start.addPairs (emittedBy iterate counts) with
  | (_, some f) => .error f
  | (b, none) => .ok b

variable {iterate : Std.HashMap (Nat × Nat) Nat → List (Nat × Nat)}

theorem bidirectEditable_eq (h : g.Reachable) (anyOrder : ∀ counts, (iterate counts).Perm counts.keys) :
    g.bidirectEditable iterate = g.bidirectedEditable := by
  obtain ⟨counts, counted, same⟩ := exists_countPairs h
  have keys : ∀ p, p ∈ iterate counts ↔ p ∈ g.pairs := by
    intro p
    rw [(anyOrder counts).mem_iff, Std.HashMap.mem_keys, same.mem_iff]
  have listed : emittedBy iterate counts = emitted g.pairs := by
    simp only [emittedBy, destutter_mergeSort keys, fuller_eq same]
    rfl
  simp only [bidirectEditable, counted, bind, Except.bind, listed]
  rfl

theorem bidirectedEditable_cases (h : g.Reachable) :
    (EditableGraph.Listable g.vertexCount (emitted g.pairs) g.multigraph ∧
      g.bidirectedEditable = .ok (.listing g.vertexCount (emitted g.pairs) g.multigraph)) ∨
    ∃ s d, g.bidirectedEditable = .error (.parallelEdge s d) ∧ g.multigraph = false ∧
      1 < bothWays g.pairs s d := by
  have inside : ∀ p ∈ emitted g.pairs, p.1 < g.vertexCount ∧ p.2 < g.vertexCount := by
    rintro ⟨u, v⟩ hp
    have near : (u, v) ∈ g.pairs ∨ (v, u) ∈ g.pairs := by
      by_contra none
      rw [not_or] at none
      have counted := List.count_pos_iff.2 hp
      rw [count_emitted, bothWays_eq_zero none.1 none.2] at counted
      exact Nat.lt_irrefl 0 counted
    rw [mem_pairs h, mem_pairs h] at near
    rcases near with ⟨e, he, rfl, rfl⟩ | ⟨e, he, rfl, rfl⟩
    · exact h.inside he
    · exact (h.inside he).symm
  have start : EditableGraph.Listable g.vertexCount [] g.multigraph := ⟨by simp, by simp⟩
  have unfolded : g.bidirectedEditable =
      match (EditableGraph.listing g.vertexCount [] g.multigraph).addPairs (emitted g.pairs) with
      | (_, some f) => .error f
      | (b, none) => .ok b := by
    rw [← EditableGraph.addVertices_empty]
    rfl
  rcases EditableGraph.addPairs_listing_cases start inside with
    listable | ⟨b, s, d, refused, simple, twice⟩
  · refine .inl ⟨listable, ?_⟩
    rw [unfolded, EditableGraph.addPairs_listing listable]
    rfl
  · rw [List.nil_append, count_emitted] at twice
    exact .inr ⟨s, d, by rw [unfolded, refused], simple, twice⟩

/-- Each direction has in `b` as many edges as the fuller one in `g`. -/
structure Bidirects (b g : Graph) : Prop where
  vertexCount : b.vertexCount = g.vertexCount
  multigraph : b.multigraph = g.multigraph
  pairCount : ∀ u v, b.pairCount u v = max (g.pairCount u v) (g.pairCount v u)

/-- What either conversion makes of a graph. -/
inductive Conversion (iterate : Std.HashMap (Nat × Nat) Nat → List (Nat × Nat)) (g : Graph) :
    Graph → Prop where
  | frozen {b : FrozenGraph} (made : g.bidirectFrozen = .ok b) : Conversion iterate g (.frozen b)
  | editable {b : EditableGraph} (made : g.bidirectEditable iterate = .ok b) :
      Conversion iterate g (.editable b)

theorem Bidirects.again {b c : Graph} (h : b.Bidirects g) (h' : c.Bidirects b) (u v : Nat) :
    c.pairCount u v = b.pairCount u v := by
  rw [h'.pairCount, h.pairCount, h.pairCount, Nat.max_comm (g.pairCount v u), Nat.max_self]

theorem exists_frozen_bidirects (h : g.Reachable) : ∃ b, g.bidirectFrozen = .ok b ∧
    (frozen b).Reachable ∧ (frozen b).Bidirects g := by
  obtain ⟨b, made, count, pairs⟩ := exists_bidirectedFrozen h
  obtain ⟨a, adopted, rfl⟩ := FrozenGraph.ofCoordinates_eq_ok made
  refine ⟨_, (bidirectFrozen_eq h).trans made, ?_, count, rfl, fun u v => ?_⟩
  · exact .frozen (.ofAdjacency (.ofCoordinates adopted) .outgoing (some g.multigraph))
  · rw [← bothWays_eq h, ← count_bothWaysEdges h]
    exact pairs u v

theorem listing_bidirects (h : g.Reachable)
    (listable : EditableGraph.Listable g.vertexCount (emitted g.pairs) g.multigraph) :
    (editable (.listing g.vertexCount (emitted g.pairs) g.multigraph)).Reachable ∧
      (editable (.listing g.vertexCount (emitted g.pairs) g.multigraph)).Bidirects g := by
  refine ⟨.editable (EditableGraph.reachable_listing listable), EditableGraph.vertexCount_listing,
    rfl, fun u v => ?_⟩
  rw [← bothWays_eq h, ← count_emitted]
  exact countP_numbered (emitted g.pairs) u v

theorem Conversion.bidirects (h : g.Reachable)
    (anyOrder : ∀ counts, (iterate counts).Perm counts.keys) {b : Graph}
    (made : Conversion iterate g b) : b.Reachable ∧ b.Bidirects g := by
  cases made with
  | frozen made =>
    obtain ⟨b', made', result⟩ := exists_frozen_bidirects h
    obtain rfl := Except.ok.inj (made.symm.trans made')
    exact result
  | editable made =>
    rw [bidirectEditable_eq h anyOrder] at made
    rcases bidirectedEditable_cases h with ⟨listable, made'⟩ | ⟨s, d, refused, -⟩
    · obtain rfl := Except.ok.inj (made.symm.trans made')
      exact listing_bidirects h listable
    · rw [made] at refused
      cases refused

theorem bidirectedEditable_decided (h : g.Reachable) :
    (∃ b, g.bidirectedEditable = .ok b ∧ (g.multigraph = true ∨ ∀ u v, g.pairCount u v ≤ 1) ∧
      b.pairs.Pairwise EmittedLE) ∨
    ∃ f, g.bidirectedEditable = .error f ∧ ¬(g.multigraph = true ∨ ∀ u v, g.pairCount u v ≤ 1) ∧
      ∃ s d, f = .parallelEdge s d ∧ 1 < max (g.pairCount s d) (g.pairCount d s) := by
  rcases bidirectedEditable_cases h with ⟨listable, made⟩ | ⟨s, d, refused, simple, twice⟩
  · refine .inl ⟨_, made, ?_, pairwise_emitted g.pairs⟩
    cases flag : g.multigraph with
    | true => exact .inl rfl
    | false =>
      refine .inr fun u v => ?_
      have once := List.nodup_iff_count_le_one.1 (listable.simple flag) (u, v)
      rw [count_emitted, bothWays_eq h] at once
      omega
  · rw [bothWays_eq h] at twice
    refine .inr ⟨_, refused, ?_, s, d, rfl, twice⟩
    rintro (flag | once)
    · rw [simple] at flag
      cases flag
    · have forth := once s d
      have back := once d s
      omega

/-- Both conversions give either direction of a pair as many edges as the fuller one has. The frozen
one always succeeds, the editable one unless a simple graph has parallel edges, and it lists the edges
by ascending unordered pairs, in whatever order the counts were gone through. The results are
symmetric, have all edges of the graph and its loops once, and stay as they are when converted. -/
theorem bidirect_fuller_direction (h : g.Reachable)
    (anyOrder : ∀ counts, (iterate counts).Perm counts.keys) :
    (∃ b, g.bidirectFrozen = .ok b) ∧
    ((∃ b, g.bidirectEditable iterate = .ok b) ↔
      g.multigraph = true ∨ ∀ u v, g.pairCount u v ≤ 1) ∧
    (∀ b, g.bidirectEditable iterate = .ok b → b.pairs.Pairwise EmittedLE) ∧
    (∀ f, g.bidirectEditable iterate = .error f → ∃ s d, f = .parallelEdge s d ∧
      1 < max (g.pairCount s d) (g.pairCount d s)) ∧
    (∀ b, Conversion iterate g b → b.Bidirects g ∧
      (∀ u v, b.pairCount u v = b.pairCount v u) ∧
      (∀ u v, g.pairCount u v ≤ b.pairCount u v) ∧
      (∀ v, b.pairCount v v = g.pairCount v v) ∧
      ∀ c, Conversion iterate b c → ∀ u v, c.pairCount u v = b.pairCount u v) ∧
    g.bidirectFrozen = g.bidirectedFrozen ∧
    g.bidirectEditable iterate = g.bidirectedEditable := by
  have same := bidirectEditable_eq h anyOrder
  have decided := decided_of_cases (bidirectedEditable_decided h)
  rw [← same] at decided
  refine ⟨?_, decided.1, decided.2.1, decided.2.2, fun b made => ?_, bidirectFrozen_eq h, same⟩
  · obtain ⟨b, made, -⟩ := exists_frozen_bidirects h
    exact ⟨b, made⟩
  · obtain ⟨reachable, result⟩ := made.bidirects h anyOrder
    refine ⟨result, fun u v => ?_, fun u v => ?_, fun v => ?_, fun c made' => ?_⟩
    · rw [result.pairCount, result.pairCount, Nat.max_comm]
    · rw [result.pairCount]
      exact Nat.le_max_left ..
    · rw [result.pairCount, Nat.max_self]
    · exact result.again (made'.bidirects reachable anyOrder).2

/-- Two edges one way and one back, a pair with one side only, and a loop. -/
theorem bidirect_fuller_direction_uneven :
    ∃ b i, bidirectEditable Std.HashMap.keys
        (editable (.listing 3 [(1, 0), (2, 1), (0, 1), (2, 2), (1, 0)] true)) = .ok b ∧
      bidirectFrozen
        (editable (.listing 3 [(1, 0), (2, 1), (0, 1), (2, 2), (1, 0)] true)) = .ok i ∧
      b.pairs.Pairwise EmittedLE ∧ (editable b).pairCount 0 1 = 2 ∧
      (frozen i).pairCount 0 1 = 2 ∧ (frozen i).pairCount 1 2 = 1 ∧ (frozen i).pairCount 2 2 = 1 := by
  have reachable :
      (editable (.listing 3 [(1, 0), (2, 1), (0, 1), (2, 2), (1, 0)] true)).Reachable :=
    .editable (EditableGraph.reachable_listing ⟨by decide, nofun⟩)
  have anyOrder : ∀ counts : Std.HashMap (Nat × Nat) Nat, counts.keys.Perm counts.keys :=
    fun counts => .refl counts.keys
  obtain ⟨⟨i, frozen⟩, succeeds, ascending, -, results, -⟩ :=
    bidirect_fuller_direction reachable anyOrder
  obtain ⟨b, editable⟩ := succeeds.2 (.inl rfl)
  have pairs := (results _ (.editable editable)).1.pairCount
  have pairs' := (results _ (.frozen frozen)).1.pairCount
  exact ⟨b, i, editable, frozen, ascending b editable, pairs 0 1, pairs' 0 1, pairs' 1 2, pairs' 2 2⟩

end Graph

end GraphRelay
