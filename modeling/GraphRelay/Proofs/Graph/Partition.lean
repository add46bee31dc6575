import GraphRelay.Proofs.Graph.Parts

/-!
# Partition undoes union

Split into as many vertices as its inputs have, a union gives the inputs back: frozen ones by their
in-rows, editable ones in everything but the flag, which is that of the union.
-/
namespace GraphRelay.Graph

/-- Frozen graphs with the same in-rows, or editable ones that differ in the flag at most. -/
def Alike : Graph → Graph → Prop
  | frozen g, frozen h => g.view .incoming = h.view .incoming
  | editable g, editable h =>
    g.pairs = h.pairs ∧ g.outgoing = h.outgoing ∧ g.incoming = h.incoming
  | _, _ => False

theorem total_eq_sum (sizes : List Nat) : total sizes = sizes.sum := rfl

theorem exists_of_sameKind {graphs : List Graph}
    (sameKind : ∀ g ∈ graphs, ∀ h ∈ graphs, g.variant = h.variant) :
    (∃ parts : List EditableGraph, graphs = parts.map editable) ∨
      ∃ parts : List FrozenGraph, graphs = parts.map frozen := by
  induction graphs with
  | nil => exact .inl ⟨[], rfl⟩
  | cons g graphs ih =>
    have rest := ih fun a ha b hb =>
      sameKind a (List.mem_cons_of_mem _ ha) b (List.mem_cons_of_mem _ hb)
    have first : ∀ h ∈ graphs, g.variant = h.variant := fun h hh =>
      sameKind g List.mem_cons_self h (List.mem_cons_of_mem _ hh)
    cases g with
    | editable g =>
      rcases rest with ⟨parts, rfl⟩ | ⟨parts, rfl⟩
      · exact .inl ⟨g :: parts, rfl⟩
      · cases parts with
        | nil => exact .inl ⟨[g], rfl⟩
        | cons h parts => simpa [variant] using first (frozen h) List.mem_cons_self
    | frozen g =>
      rcases rest with ⟨parts, rfl⟩ | ⟨parts, rfl⟩
      · cases parts with
        | nil => exact .inr ⟨[g], rfl⟩
        | cons h parts => simpa [variant] using first (editable h) List.mem_cons_self
      · exact .inr ⟨g :: parts, rfl⟩

theorem sameKind_of_disjointUnion {graphs : List Graph} {whole : Graph}
    (joined : disjointUnion graphs = .ok whole) :
    ∀ g ∈ graphs, ∀ h ∈ graphs, g.variant = h.variant := by
  cases graphs with
  | nil => cases joined
  | cons first graphs =>
    unfold disjointUnion at joined
    dsimp only at joined
    split at joined
    · cases joined
    next none =>
    rw [List.find?_eq_none] at none
    have one : ∀ g ∈ first :: graphs, g.variant = first.variant := by
      intro g hg
      obtain ⟨i, hi⟩ := List.getElem?_of_mem hg
      simpa using none (g, i) (List.mem_zipIdx_iff_getElem?.2 hi)
    exact fun g hg h hh => (one g hg).trans (one h hh).symm

section Frozen

variable {graphs : List FrozenGraph}

theorem wellFormed_ofRows_joinRows {parts : List Adjacency}
    (wellFormed : ∀ a ∈ parts, a.WellFormed) :
    (Adjacency.ofRows (joinRows 0 0 parts)).WellFormed := by
  apply Adjacency.wellFormed_ofRows
  have inside := neighbor_lt_of_mem_joinRows 0 0 wellFormed
  rwa [Nat.zero_add, ← length_joinRows 0 0] at inside

theorem view_unionFrozen (graphs : List FrozenGraph) :
    (unionFrozen graphs).view .incoming =
      .ofRows (joinRows 0 0 (graphs.map (·.view .incoming))) := rfl

theorem edgeCount_view {g : FrozenGraph} (h : g.Reachable) (d : Direction) :
    (g.view d).edgeCount = g.edgeCount :=
  (Reachable.frozen h).length_flatten_arcRows d

theorem closed_view {g : FrozenGraph} (h : g.Reachable)
    (numbered : ∀ e ∈ g.edges, e.id < g.edgeCount) : (g.view .incoming).Closed := by
  obtain ⟨wellFormed, -, same⟩ := h.view .incoming
  refine ⟨wellFormed, fun row hrow arc harc => ?_⟩
  obtain ⟨v, hv⟩ := List.getElem?_of_mem hrow
  have entry : (⟨v, arc.neighbor, arc.edge⟩ : Entry) ∈ (g.view .incoming).entries := by
    rw [Adjacency.mem_entries, Adjacency.row, hv]
    exact harc
  rw [edgeCount_view h]
  exact numbered _ (same.mem_iff.1 (List.mem_map_of_mem (f := Entry.edgeOf .incoming) entry))

variable (reachable : ∀ g ∈ graphs, g.Reachable)

include reachable

theorem map_vertexCount_view : (graphs.map (·.view .incoming)).map Adjacency.vertexCount =
    graphs.map FrozenGraph.vertexCount := by
  rw [List.map_map]
  exact List.map_congr_left fun g hg => ((reachable g hg).view .incoming).2.1

theorem vertexCount_unionFrozen :
    (unionFrozen graphs).vertexCount = (graphs.map FrozenGraph.vertexCount).sum := by
  rw [← map_vertexCount_view reachable]
  exact length_joinRows ..

theorem edgeCount_unionFrozen :
    (unionFrozen graphs).edgeCount = (graphs.map FrozenGraph.edgeCount).sum := by
  have counts : (graphs.map (·.view .incoming)).map Adjacency.edgeCount =
      graphs.map FrozenGraph.edgeCount := by
    rw [List.map_map]
    exact List.map_congr_left fun g hg => edgeCount_view (reachable g hg) .incoming
  rw [← counts]
  exact length_flatten_joinRows ..

theorem partitionBySizes_unionFrozen
    (numbered : ∀ g ∈ graphs, ∀ e ∈ g.edges, e.id < g.edgeCount) :
    (frozen (unionFrozen graphs)).partitionBySizes (graphs.map FrozenGraph.vertexCount) =
      .ok (graphs.map fun g => frozen (.ofAdjacency (g.view .incoming) .incoming none)) := by
  have total : (joinRows 0 0 (graphs.map (·.view .incoming))).length =
      (graphs.map FrozenGraph.vertexCount).sum := by
    rw [length_joinRows, map_vertexCount_view reachable]
  have split := (@splitFrozen_eq_ok_iff 0 0 0 _ _ _ total).2
    ⟨_, rfl, map_vertexCount_view reachable, fun a ha => ?_, rfl⟩
  · rw [partitionBySizes, total_eq_sum, vertexCount, vertexCount_unionFrozen reachable,
      if_neg (not_not_intro rfl)]
    change (splitFrozen 0 0 0 (joinRows 0 0 (graphs.map (·.view .incoming))) _).map _ = _
    rw [split, List.map_map]
    exact congrArg Except.ok (List.map_map ..)
  · obtain ⟨g, hg, rfl⟩ := List.mem_map.1 ha
    exact closed_view (reachable g hg) (numbered g hg)

end Frozen

section Editable

theorem le_of_mem_joinPairs {start : Nat} {parts : List EditableGraph} {p : Nat × Nat}
    (h : p ∈ joinPairs start parts) : start ≤ p.1 := by
  induction parts generalizing start with
  | nil => simp [joinPairs] at h
  | cons g parts ih =>
    rcases List.mem_append.1 h with own | later
    · obtain ⟨q, -, rfl⟩ := List.mem_map.1 own
      exact Nat.le_add_left ..
    · exact Nat.le_of_add_right_le (ih later)

/-- The first graphs own the pairs that start at one of their vertices. -/
theorem countP_joinPairs {start : Nat} {parts : List EditableGraph}
    (reachable : ∀ g ∈ parts, g.Reachable) (k : Nat) :
    (joinPairs start parts).countP
        (·.1 < start + ((parts.take k).map EditableGraph.vertexCount).sum) =
      ((parts.take k).map EditableGraph.edgeCount).sum := by
  induction parts generalizing start k with
  | nil => simp [joinPairs]
  | cons g parts ih =>
    rw [List.forall_mem_cons] at reachable
    cases k with
    | zero =>
      refine List.countP_eq_zero.2 fun p hp => ?_
      simpa using le_of_mem_joinPairs hp
    | succ k =>
      rw [List.take_succ_cons, List.map_cons, List.sum_cons, List.map_cons, List.sum_cons,
        joinPairs, List.countP_append, ← Nat.add_assoc, ih reachable.2]
      congr 1
      rw [EditableGraph.edgeCount, ← List.length_map (movePair start), List.countP_eq_length]
      intro p hp
      obtain ⟨q, hq, rfl⟩ := List.mem_map.1 hp
      have := reachable.1.eq_listing.1.inside q hq
      have before : (movePair start q).1 < start + g.vertexCount +
          ((parts.take k).map EditableGraph.vertexCount).sum := by
        simp only [movePair]
        omega
      exact decide_eq_true before

open EditableGraph

/-- A graph that lists the joined pairs of graphs with its flag splits into these graphs. -/
theorem partitionBySizes_listing {own : List EditableGraph} {multigraph : Bool}
    (made : ∀ g ∈ own, g.Reachable ∧ g.multigraph = multigraph) :
    (editable (listing (own.map EditableGraph.vertexCount).sum (joinPairs 0 own)
      multigraph)).partitionBySizes (own.map EditableGraph.vertexCount) =
        .ok (own.map editable) := by
  have reachable : ∀ g ∈ own, g.Reachable := fun g hg => (made g hg).1
  have listable := listable_joinPairs reachable fun none g hg => (made g hg).2.trans none
  have counts : ∀ k, ((listing (own.map EditableGraph.vertexCount).sum (joinPairs 0 own)
      multigraph).outgoing.take ((own.take k).map EditableGraph.vertexCount).sum).flatten.length =
      ((own.take k).map EditableGraph.edgeCount).sum := by
    intro k
    have rows := (Reachable.editable (reachable_listing listable)).length_flatten_take .outgoing
      ((own.take k).map EditableGraph.vertexCount).sum
    have pairs := @countP_joinPairs 0 own reachable k
    rw [← map_endpoints_numbered 0 (joinPairs 0 own), List.countP_map, Nat.zero_add] at pairs
    exact rows.trans pairs
  have listed := List.zipIdx_map_fst 0 (joinPairs 0 own)
  rw [partitionBySizes, total_eq_sum, vertexCount, vertexCount_listing, if_neg (not_not_intro rfl)]
  change (splitEditable multigraph 0 0 (listing _ (joinPairs 0 own) multigraph).outgoing
    (joinPairs 0 own).zipIdx (own.map EditableGraph.vertexCount)).map _ = _
  rw [splitEditable_joinPairs made counts listed]
  rfl

theorem joinPairs_withFlag (start : Nat) (graphs : List EditableGraph) (multigraph : Bool) :
    joinPairs start (graphs.map fun g => { g with multigraph := multigraph }) =
      joinPairs start graphs := by
  induction graphs generalizing start with
  | nil => rfl
  | cons g graphs ih =>
    rw [List.map_cons, joinPairs, ih]
    rfl

/-- The part that comes back for `g` has the flag of the union. -/
theorem partitionBySizes_unionEditable {graphs : List EditableGraph} {whole : EditableGraph}
    (reachable : ∀ g ∈ graphs, g.Reachable) (joined : unionEditable graphs = .ok whole) :
    (editable whole).partitionBySizes (graphs.map EditableGraph.vertexCount) =
      .ok (graphs.map fun g => editable { g with multigraph := whole.multigraph }) := by
  rw [unionEditable_eq reachable] at joined
  obtain rfl := Except.ok.inj joined
  have flags : ∀ g ∈ graphs, graphs.any EditableGraph.multigraph = false →
      g.multigraph = false := by
    intro g hg none
    simpa using List.any_eq_false.1 none g hg
  generalize graphs.any EditableGraph.multigraph = flag at flags ⊢
  have made : ∀ g ∈ graphs.map fun g => { g with multigraph := flag },
      EditableGraph.Reachable g ∧ g.multigraph = flag := by
    intro g hg
    obtain ⟨original, horiginal, rfl⟩ := List.mem_map.1 hg
    exact ⟨(reachable original horiginal).withFlag (flags original horiginal), rfl⟩
  have sizes : (graphs.map fun g => { g with multigraph := flag }).map EditableGraph.vertexCount =
      graphs.map EditableGraph.vertexCount := List.map_map ..
  have split := partitionBySizes_listing made
  rw [sizes, joinPairs_withFlag, List.map_map] at split
  exact split

end Editable

theorem Reachable.disjointUnion {graphs : List Graph} {whole : Graph}
    (reachable : ∀ g ∈ graphs, g.Reachable) (joined : Graph.disjointUnion graphs = .ok whole) :
    whole.Reachable := by
  have nonempty : graphs ≠ [] := by
    rintro rfl
    cases joined
  rcases exists_of_sameKind (sameKind_of_disjointUnion joined) with ⟨parts, rfl⟩ | ⟨parts, rfl⟩
  · have made : ∀ g ∈ parts, g.Reachable := by
      simpa only [List.forall_mem_map, reachable_editable] using reachable
    rw [disjointUnion_editable (by simpa using nonempty), unionEditable_eq made] at joined
    obtain rfl := Except.ok.inj joined
    have simple : parts.any EditableGraph.multigraph = false →
        ∀ g ∈ parts, g.multigraph = false := by
      simp
    exact .editable (EditableGraph.reachable_listing (listable_joinPairs made simple))
  · have made : ∀ g ∈ parts, g.Reachable := by
      simpa only [List.forall_mem_map, reachable_frozen] using reachable
    rw [disjointUnion_frozen (by simpa using nonempty)] at joined
    obtain rfl := Except.ok.inj joined
    have wellFormed : ∀ a ∈ parts.map (·.view .incoming), a.WellFormed := by
      intro a ha
      obtain ⟨g, hg, rfl⟩ := List.mem_map.1 ha
      exact ((made g hg).view .incoming).1
    exact .frozen (.ofAdjacency
      (Adjacency.reachable_iff.2 (wellFormed_ofRows_joinRows wellFormed)) .incoming _)

/-- A union counts the vertices and edges of its inputs together, and splitting it into as many
vertices as they have gives them back, provided that frozen inputs number their edges from 0. -/
theorem partitionBySizes_disjointUnion {graphs : List Graph} (nonempty : graphs ≠ [])
    (reachable : ∀ g ∈ graphs, g.Reachable)
    (sameKind : ∀ g ∈ graphs, ∀ h ∈ graphs, g.variant = h.variant) :
    ∃ whole, disjointUnion graphs = .ok whole ∧
      whole.vertexCount = (graphs.map vertexCount).sum ∧
      whole.edgeCount = (graphs.map edgeCount).sum ∧
      ((∀ g, frozen g ∈ graphs → ∀ e ∈ g.edges, e.id < g.edgeCount) →
        ∃ parts, whole.partitionBySizes (graphs.map vertexCount) = .ok parts ∧
          List.Forall₂ Alike parts graphs) := by
  rcases exists_of_sameKind sameKind with ⟨parts, rfl⟩ | ⟨parts, rfl⟩
  · have made : ∀ g ∈ parts, g.Reachable := by
      simpa only [List.forall_mem_map, reachable_editable] using reachable
    have sizes : (parts.map editable).map vertexCount = parts.map EditableGraph.vertexCount :=
      List.map_map ..
    have counts : (parts.map editable).map edgeCount = parts.map EditableGraph.edgeCount :=
      List.map_map ..
    have joined := unionEditable_eq made
    rw [disjointUnion_editable (by simpa using nonempty), joined, sizes, counts]
    refine ⟨_, rfl, EditableGraph.vertexCount_listing, length_joinPairs 0 parts, fun _ => ⟨_,
      partitionBySizes_unionEditable made joined, ?_⟩⟩
    rw [List.forall₂_map_left_iff, List.forall₂_map_right_iff, List.forall₂_same]
    exact fun g _ => ⟨rfl, rfl, rfl⟩
  · have made : ∀ g ∈ parts, g.Reachable := by
      simpa only [List.forall_mem_map, reachable_frozen] using reachable
    have sizes : (parts.map frozen).map vertexCount = parts.map FrozenGraph.vertexCount :=
      List.map_map ..
    have counts : (parts.map frozen).map edgeCount = parts.map FrozenGraph.edgeCount :=
      List.map_map ..
    rw [disjointUnion_frozen (by simpa using nonempty), sizes, counts]
    refine ⟨_, rfl, vertexCount_unionFrozen made, edgeCount_unionFrozen made, fun numbered => ⟨_,
      partitionBySizes_unionFrozen made fun g hg => numbered g (List.mem_map_of_mem hg), ?_⟩⟩
    rw [List.forall₂_map_left_iff, List.forall₂_map_right_iff, List.forall₂_same]
    exact fun g _ => rfl

/-- A graph given by source with a row out of order, an isolated vertex, and a graph given by
destination with two loops. -/
theorem partitionBySizes_disjointUnion_two :
    ∃ whole parts,
      disjointUnion [.frozen ⟨⟨[[⟨1, 0⟩, ⟨0, 1⟩], []], false⟩, .outgoing, none, false, 64⟩,
        .frozen ⟨⟨[[⟨0, 1⟩, ⟨0, 0⟩]], true⟩, .incoming, none, true, 64⟩] = .ok whole ∧
      whole.vertexCount = 3 ∧ whole.edgeCount = 4 ∧ whole.partitionBySizes [2, 1] = .ok parts ∧
      List.Forall₂ Alike parts
        [.frozen ⟨⟨[[⟨1, 0⟩, ⟨0, 1⟩], []], false⟩, .outgoing, none, false, 64⟩,
          .frozen ⟨⟨[[⟨0, 1⟩, ⟨0, 0⟩]], true⟩, .incoming, none, true, 64⟩] := by
  have first : Adjacency.Reachable ⟨[[⟨1, 0⟩, ⟨0, 1⟩], []], false⟩ :=
    Adjacency.reachable_iff.2 ⟨by decide, by decide⟩
  have second : Adjacency.Reachable ⟨[[⟨0, 1⟩, ⟨0, 0⟩]], true⟩ :=
    Adjacency.reachable_iff.2 ⟨by decide, by decide⟩
  have reachable : ∀ g ∈
      [frozen ⟨⟨[[⟨1, 0⟩, ⟨0, 1⟩], []], false⟩, .outgoing, none, false, 64⟩,
        .frozen ⟨⟨[[⟨0, 1⟩, ⟨0, 0⟩]], true⟩, .incoming, none, true, 64⟩], g.Reachable := by
    simp only [List.forall_mem_cons]
    exact ⟨.frozen (.ofAdjacency first .outgoing (some false)),
      .frozen (.ofAdjacency second .incoming (some true)), by simp⟩
  obtain ⟨whole, joined, vertices, edges, split⟩ :=
    partitionBySizes_disjointUnion (by simp) reachable (by simp [variant])
  obtain ⟨parts, done, alike⟩ := split (by
    simp only [List.mem_cons, frozen.injEq, List.not_mem_nil, or_false, forall_eq_or_imp, forall_eq]
    decide)
  exact ⟨whole, parts, joined, vertices, edges, done, alike⟩

end GraphRelay.Graph
