import GraphRelay.Proofs.Graph.Partition
import GraphRelay.Proofs.Graph.Shape

/-!
# Splitting what has the shape of a union

Splitting a frozen graph looks at the in-rows, splitting an editable one at the out-rows and at the
edges by id. Both succeed on the same shape, and the union of the parts is the graph again.
-/
namespace GraphRelay

theorem mem_drop_take {α : Type} {xs : List α} {a b : Nat} {x : α} :
    x ∈ (xs.take b).drop a ↔ ∃ i, a ≤ i ∧ i < b ∧ xs[i]? = some x := by
  rw [List.mem_iff_getElem?]
  simp only [List.getElem?_drop, List.getElem?_take]
  constructor
  · rintro ⟨i, hi⟩
    split at hi
    · exact ⟨a + i, by omega, by assumption, hi⟩
    · cases hi
  · rintro ⟨i, ha, hb, hi⟩
    refine ⟨i - a, ?_⟩
    rw [Nat.add_sub_cancel' ha, if_pos hb, hi]

theorem drop_take_add {α : Type} (xs : List α) (n a b : Nat) :
    (xs.take (n + b)).drop (n + a) = ((xs.drop n).take b).drop a := by
  rw [List.take_drop, List.drop_drop]

theorem length_flatten_take_add {α : Type} (rows : List (List α)) (n k : Nat) :
    (rows.take (n + k)).flatten.length =
      (rows.take n).flatten.length + ((rows.drop n).take k).flatten.length := by
  rw [List.take_add, List.flatten_append, List.length_append]

namespace Graph

section Frozen

variable {part start first size edges : Nat} {rows : List (List Arc)} {sizes : List Nat}

theorem exists_localArc_iff {arc : Arc} :
    (∃ b, localArc part start size first edges arc = .ok b) ↔
      (start ≤ arc.neighbor ∧ arc.neighbor < start + size) ∧
        first ≤ arc.edge ∧ arc.edge < first + edges := by
  rw [localArc]
  simp only [Bool.or_eq_true, decide_eq_true_eq]
  split
  · exact iff_of_false (by simp) (by omega)
  split
  · exact iff_of_false (by simp) (by omega)
  · exact iff_of_true ⟨_, rfl⟩ (by omega)

theorem exists_splitFrozen_iff : (∃ parts, splitFrozen part start first rows sizes = .ok parts) ↔
    ∀ k < sizes.length,
      ∀ row ∈ (rows.take (rangeStart sizes (k + 1))).drop (rangeStart sizes k), ∀ arc ∈ row,
        (start + rangeStart sizes k ≤ arc.neighbor ∧
          arc.neighbor < start + rangeStart sizes (k + 1)) ∧
        first + (rows.take (rangeStart sizes k)).flatten.length ≤ arc.edge ∧
          arc.edge < first + (rows.take (rangeStart sizes (k + 1))).flatten.length := by
  induction sizes generalizing part start first rows with
  | nil => exact iff_of_true ⟨[], rfl⟩ (by simp)
  | cons size sizes ih =>
    rw [List.length_cons, Nat.forall_lt_succ_left, splitFrozen]
    simp only [rangeStart_zero, rangeStart_cons_succ, Nat.add_zero, List.drop_zero, List.take_zero,
      List.flatten_nil, List.length_nil, drop_take_add, length_flatten_take_add, ← Nat.add_assoc]
    rw [← ih]
    constructor
    · rintro ⟨parts, split⟩
      obtain ⟨moved, here, split⟩ := bind_ok_iff.1 split
      obtain ⟨rest, later, -⟩ := bind_ok_iff.1 split
      refine ⟨fun row hrow arc harc => ?_, rest, later⟩
      have row_ok := exists_mapM_eq_ok_iff.1 ⟨moved, here⟩ row hrow
      exact exists_localArc_iff.1 (exists_mapM_eq_ok_iff.1 row_ok arc harc)
    · rintro ⟨here, rest, later⟩
      obtain ⟨moved, here⟩ := exists_mapM_eq_ok_iff.2 fun row hrow =>
        exists_mapM_eq_ok_iff.2 fun arc harc => exists_localArc_iff.2 (here row hrow arc harc)
      exact ⟨_, bind_ok_iff.2 ⟨moved, here, bind_ok_iff.2 ⟨rest, later, rfl⟩⟩⟩

theorem exists_splitFrozen_iff_inBlocks {g : FrozenGraph} (h : g.Reachable)
    (total : sizes.sum = g.vertexCount) :
    (∃ parts, splitFrozen 0 0 0 (g.view .incoming).rows sizes = .ok parts) ↔
      InBlocks sizes g.edges := by
  have reachable := Reachable.frozen h
  have counts : ∀ k, ((g.view .incoming).rows.take (rangeStart sizes k)).flatten.length =
      edgesBefore .incoming sizes g.edges k := fun k => reachable.length_flatten_take .incoming _
  have inside : ∀ e ∈ g.edges, e.dst < sizes.sum := by
    intro e he
    rw [total]
    exact (reachable.inside he).2
  rw [inBlocks_iff_of_dst inside, exists_splitFrozen_iff]
  simp only [Nat.zero_add, counts, mem_drop_take]
  refine forall₂_congr fun k hk => ?_
  constructor
  · intro rows e he hd
    obtain ⟨row, hrow, harc⟩ := (reachable.mem_edges_iff .incoming).1 he
    exact rows row ⟨e.dst, hd.1, hd.2, hrow⟩ ⟨e.src, e.id⟩ harc
  · rintro edges row ⟨v, lower, upper, hrow⟩ arc harc
    have he : (⟨arc.neighbor, v, arc.edge⟩ : Edge) ∈ g.edges :=
      (reachable.mem_edges_iff .incoming).2 ⟨row, hrow, harc⟩
    exact edges _ he ⟨lower, upper⟩

end Frozen

section Editable

open EditableGraph

variable {part start size : Nat} {multigraph : Bool} {pairs : List ((Nat × Nat) × Nat)}

theorem exists_takePairs_iff (simple : multigraph = false → (pairs.map Prod.fst).Nodup) :
    (∃ g, takePairs part start size (listing size [] multigraph) pairs = .ok g) ↔
      ∀ p ∈ pairs, (start ≤ p.1.1 ∧ p.1.1 < start + size) ∧
        start ≤ p.1.2 ∧ p.1.2 < start + size := by
  simp only [takePairs_eq_ok_iff ⟨fun _ h => absurd h List.not_mem_nil, fun _ => List.nodup_nil⟩,
    List.nil_append]
  constructor
  · rintro ⟨g, own, moved, listable, -⟩ p hp
    have back : p.1 ∈ own.map (movePair start) := by
      rw [← moved]
      exact List.mem_map_of_mem hp
    obtain ⟨q, hq, heq⟩ := List.mem_map.1 back
    have inside := listable.inside q hq
    rw [← heq, movePair]
    omega
  · intro inside
    have moved : pairs.map Prod.fst =
        (pairs.map fun p => (p.1.1 - start, p.1.2 - start)).map (movePair start) := by
      rw [List.map_map]
      refine List.map_congr_left fun p hp => ?_
      have := inside p hp
      rw [Function.comp_apply, movePair, Nat.sub_add_cancel this.1.1, Nat.sub_add_cancel this.2.1]
    refine ⟨_, _, moved, ⟨fun q hq => ?_, fun none => ?_⟩, rfl⟩
    · obtain ⟨p, hp, rfl⟩ := List.mem_map.1 hq
      have := inside p hp
      omega
    · have distinct := simple none
      rw [moved] at distinct
      exact distinct.of_map _

theorem exists_splitEditable_iff {rows : List (List Arc)} {sizes : List Nat}
    (simple : multigraph = false → (pairs.map Prod.fst).Nodup) :
    (∃ parts, splitEditable multigraph part start rows pairs sizes = .ok parts) ↔
      ∀ k < sizes.length,
        ∀ p ∈ (pairs.take (rows.take (rangeStart sizes (k + 1))).flatten.length).drop
            (rows.take (rangeStart sizes k)).flatten.length,
          (start + rangeStart sizes k ≤ p.1.1 ∧ p.1.1 < start + rangeStart sizes (k + 1)) ∧
            start + rangeStart sizes k ≤ p.1.2 ∧ p.1.2 < start + rangeStart sizes (k + 1) := by
  induction sizes generalizing part start rows pairs with
  | nil => exact iff_of_true ⟨[], rfl⟩ (by simp)
  | cons size sizes ih =>
    rw [List.length_cons, Nat.forall_lt_succ_left, splitEditable, addVertices_empty]
    simp only [rangeStart_zero, rangeStart_cons_succ, Nat.add_zero, List.drop_zero, List.take_zero,
      List.flatten_nil, List.length_nil, length_flatten_take_add, drop_take_add, ← Nat.add_assoc]
    have here_simple : multigraph = false →
        ((pairs.take (rows.take size).flatten.length).map Prod.fst).Nodup := fun none =>
      (simple none).sublist ((List.take_sublist ..).map _)
    have later_simple : multigraph = false →
        ((pairs.drop (rows.take size).flatten.length).map Prod.fst).Nodup := fun none =>
      (simple none).sublist ((List.drop_sublist ..).map _)
    rw [← ih later_simple, ← exists_takePairs_iff here_simple]
    constructor
    · rintro ⟨parts, split⟩
      obtain ⟨g, here, split⟩ := bind_ok_iff.1 split
      obtain ⟨rest, later, -⟩ := bind_ok_iff.1 split
      exact ⟨⟨g, here⟩, rest, later⟩
    · rintro ⟨⟨g, here⟩, rest, later⟩
      exact ⟨_, bind_ok_iff.2 ⟨g, here, bind_ok_iff.2 ⟨rest, later, rfl⟩⟩⟩

theorem exists_splitEditable_iff_inBlocks {g : EditableGraph} {sizes : List Nat} (h : g.Reachable)
    (total : sizes.sum = g.vertexCount) :
    (∃ parts, splitEditable g.multigraph 0 0 g.outgoing g.pairs.zipIdx sizes = .ok parts) ↔
      InBlocks sizes g.edges := by
  have reachable := Reachable.editable h
  have counts : ∀ k, (g.outgoing.take (rangeStart sizes k)).flatten.length =
      edgesBefore .outgoing sizes g.edges k := fun k => reachable.length_flatten_take .outgoing _
  have inside : ∀ e ∈ g.edges, e.src < sizes.sum := by
    intro e he
    rw [total]
    exact (reachable.inside he).1
  have ids : ∀ e ∈ g.edges, e.id < g.edges.length := by
    intro e he
    exact (List.getElem?_eq_some_iff.1 (mem_numbered.1 he)).1.trans_eq reachable.edgeCount_eq
  have simple : g.multigraph = false → (g.pairs.zipIdx.map Prod.fst).Nodup := by
    rw [List.zipIdx_map_fst]
    exact h.eq_listing.1.simple
  rw [inBlocks_iff_of_id inside ids, exists_splitEditable_iff simple]
  simp only [Nat.zero_add, counts, mem_drop_take, List.getElem?_zipIdx, Option.map_eq_some_iff]
  refine forall₂_congr fun k hk => ?_
  constructor
  · intro listed e he lower upper
    exact listed _ ⟨e.id, lower, upper, _, mem_numbered.1 he, rfl⟩
  · rintro edges p ⟨i, lower, upper, pair, hpair, rfl⟩
    have he : (⟨pair.1, pair.2, i⟩ : Edge) ∈ g.edges := mem_numbered.2 hpair
    exact edges _ he lower upper

end Editable

section Refused

open EditableGraph

variable {part start first size edges : Nat} {sizes : List Nat} {f : Fault}

theorem localArc_refused {arc : Arc} (h : localArc part start size first edges arc = .error f) :
    f.kind = .precondition := by
  rw [localArc] at h
  split at h
  · cases h
    rfl
  split at h <;> cases h
  rfl

theorem splitFrozen_refused {rows : List (List Arc)}
    (h : splitFrozen part start first rows sizes = .error f) : f.kind = .precondition := by
  induction sizes generalizing part start first rows with
  | nil => cases h
  | cons size sizes ih =>
    rcases bind_error_iff.1 h with here | ⟨moved, -, h⟩
    · obtain ⟨row, -, refused⟩ := mapM_eq_error here
      obtain ⟨arc, -, refused⟩ := mapM_eq_error refused
      exact localArc_refused refused
    · rcases bind_error_iff.1 h with later | ⟨rest, -, done⟩
      · exact ih later
      · cases done

/-- Endpoints are compared with the range before an edge is added, so that a part refuses no edge
for want of a vertex. -/
theorem takePairs_refused {pairs : List ((Nat × Nat) × Nat)} {done : List (Nat × Nat)}
    {multigraph : Bool}
    (h : takePairs part start size (listing size done multigraph) pairs = .error f) :
    f.kind = .precondition := by
  induction pairs generalizing done with
  | nil => cases h
  | cons pair pairs ih =>
    obtain ⟨⟨s, d⟩, i⟩ := pair
    rw [takePairs] at h
    simp only [Bool.or_eq_true, decide_eq_true_eq] at h
    split at h
    · cases h
      rfl
    rw [addEdge_listing (by omega) (by omega)] at h
    split at h
    · cases h
      rfl
    · exact ih h

theorem splitEditable_refused {rows : List (List Arc)} {pairs : List ((Nat × Nat) × Nat)}
    {multigraph : Bool} (h : splitEditable multigraph part start rows pairs sizes = .error f) :
    f.kind = .precondition := by
  induction sizes generalizing part start rows pairs with
  | nil => cases h
  | cons size sizes ih =>
    rw [splitEditable, addVertices_empty] at h
    rcases bind_error_iff.1 h with here | ⟨own, -, h⟩
    · exact takePairs_refused here
    · rcases bind_error_iff.1 h with later | ⟨rest, -, done⟩
      · exact ih later
      · cases done

theorem partitionBySizes_refused {g : Graph} (h : g.partitionBySizes sizes = .error f) :
    f.kind = .precondition := by
  cases g with
  | editable g =>
    rw [partitionBySizes] at h
    split at h
    · cases h
      rfl
    · exact splitEditable_refused (map_error_iff.1 h)
  | frozen g =>
    rw [partitionBySizes] at h
    split at h
    · cases h
      rfl
    · exact splitFrozen_refused (map_error_iff.1 h)

end Refused

section Sizes

variable {g : Graph} {sizes : List Nat}

theorem sum_of_partitionBySizes {parts : List Graph} (h : g.partitionBySizes sizes = .ok parts) :
    sizes.sum = g.vertexCount := by
  unfold partitionBySizes at h
  split at h
  · cases h
  next total => exact not_not.1 total

theorem partitionBySizes_editable {g : EditableGraph} (total : sizes.sum = g.vertexCount) :
    (editable g).partitionBySizes sizes =
      (splitEditable g.multigraph 0 0 g.outgoing g.pairs.zipIdx sizes).map (·.map editable) :=
  if_neg (not_not_intro total)

theorem partitionBySizes_frozen {g : FrozenGraph} (total : sizes.sum = g.vertexCount) :
    (frozen g).partitionBySizes sizes =
      (splitFrozen 0 0 0 (g.view .incoming).rows sizes).map (·.map frozen) :=
  if_neg (not_not_intro total)

theorem exists_partitionBySizes_iff (h : g.Reachable) :
    (∃ parts, g.partitionBySizes sizes = .ok parts) ↔ UnionShaped g sizes := by
  by_cases total : sizes.sum = g.vertexCount
  · rw [unionShaped_iff, and_iff_right total]
    cases h with
    | editable h =>
      rw [partitionBySizes_editable total, exists_map_ok_iff]
      exact exists_splitEditable_iff_inBlocks h total
    | frozen h =>
      rw [partitionBySizes_frozen total, exists_map_ok_iff]
      exact exists_splitFrozen_iff_inBlocks h total
  · refine iff_of_false ?_ fun shaped => total shaped.total
    rintro ⟨parts, split⟩
    exact total (sum_of_partitionBySizes split)

theorem partitionBySizes_editable_eq_ok {g : EditableGraph} {parts : List Graph} (h : g.Reachable)
    (split : (editable g).partitionBySizes sizes = .ok parts) : ∃ own : List EditableGraph,
      parts = own.map editable ∧ own.map EditableGraph.vertexCount = sizes ∧
        (∀ part ∈ own, part.Reachable ∧ part.multigraph = g.multigraph) ∧
        joinPairs 0 own = g.pairs := by
  have total := sum_of_partitionBySizes split
  rw [partitionBySizes_editable total] at split
  obtain ⟨own, found, rfl⟩ := map_ok_iff.1 split
  have count : g.outgoing.flatten.length = g.pairs.zipIdx.length := by
    rw [List.length_zipIdx]
    exact (Reachable.editable h).length_flatten_arcRows .outgoing
  obtain ⟨counts, made, joined⟩ := joinPairs_of_splitEditable total.symm count found
  rw [List.zipIdx_map_fst] at joined
  exact ⟨own, rfl, counts, made, joined⟩

theorem partitionBySizes_frozen_eq_ok {g : FrozenGraph} {parts : List Graph} (h : g.Reachable)
    (split : (frozen g).partitionBySizes sizes = .ok parts) : ∃ own : List Adjacency,
      parts = (own.map (.ofAdjacency · .incoming none)).map frozen ∧
        own.map Adjacency.vertexCount = sizes ∧ (∀ a ∈ own, a.Closed) ∧
        joinRows 0 0 own = (g.view .incoming).rows := by
  have total := sum_of_partitionBySizes split
  rw [partitionBySizes_frozen total] at split
  obtain ⟨made, found, rfl⟩ := map_ok_iff.1 split
  have rows : (g.view .incoming).rows.length = sizes.sum :=
    (h.view .incoming).2.1.trans total.symm
  obtain ⟨own, rfl, counts, closed, joined⟩ := (splitFrozen_eq_ok_iff rows).1 found
  exact ⟨own, rfl, counts, closed, joined⟩

theorem Reachable.partitionBySizes (h : g.Reachable) {parts : List Graph}
    (split : g.partitionBySizes sizes = .ok parts) : ∀ part ∈ parts, part.Reachable := by
  cases h with
  | editable h =>
    obtain ⟨own, rfl, -, made, -⟩ := partitionBySizes_editable_eq_ok h split
    rw [List.forall_mem_map]
    exact fun part hpart => .editable (made part hpart).1
  | frozen h =>
    obtain ⟨own, rfl, -, closed, -⟩ := partitionBySizes_frozen_eq_ok h split
    rw [List.forall_mem_map, List.forall_mem_map]
    exact fun a ha =>
      .frozen (.ofAdjacency (Adjacency.reachable_iff.2 (closed a ha).wellFormed) .incoming none)

theorem disjointUnion_of_partitionBySizes (h : g.Reachable) (nonempty : sizes ≠ [])
    {parts : List Graph} (split : g.partitionBySizes sizes = .ok parts) :
    parts.map vertexCount = sizes ∧ ∃ whole, disjointUnion parts = .ok whole ∧ whole.Alike g ∧
      (g.isFrozen = false → whole = g) := by
  have total := sum_of_partitionBySizes split
  cases h with
  | @editable g h =>
    obtain ⟨own, rfl, counts, made, joined⟩ := partitionBySizes_editable_eq_ok h split
    have own_ne : own ≠ [] := by
      rintro rfl
      exact nonempty counts.symm
    have flag : own.any EditableGraph.multigraph = g.multigraph := by
      obtain ⟨first, rest, rfl⟩ := List.exists_cons_of_ne_nil own_ne
      cases own_flag : g.multigraph with
      | false => exact List.any_eq_false.2 fun g hg => by simp [(made g hg).2, own_flag]
      | true => exact List.any_eq_true.2 ⟨first, by simp, (made first (by simp)).2.trans own_flag⟩
    have whole : unionEditable own = .ok g := by
      rw [unionEditable_eq fun g hg => (made g hg).1, joined, counts, flag, total, vertexCount,
        ← h.eq_listing.2]
    rw [disjointUnion_editable own_ne, whole]
    exact ⟨(List.map_map ..).trans counts, _, rfl, ⟨rfl, rfl, rfl⟩, fun _ => rfl⟩
  | @frozen g h =>
    obtain ⟨own, rfl, counts, -, joined⟩ := partitionBySizes_frozen_eq_ok h split
    have own_ne : own.map (FrozenGraph.ofAdjacency · .incoming none) ≠ [] := by
      intro none
      rw [List.map_eq_nil_iff] at none
      subst none
      exact nonempty counts.symm
    have views : (own.map (FrozenGraph.ofAdjacency · .incoming none)).map (·.view .incoming) =
        own := by
      rw [List.map_map]
      exact List.map_id own
    rw [disjointUnion_frozen own_ne]
    refine ⟨?_, _, rfl, ?_, by simp [isFrozen]⟩
    · rw [List.map_map, List.map_map]
      exact counts
    · change (unionFrozen _).view .incoming = g.view .incoming
      rw [view_unionFrozen, views, joined, (h.view .incoming).1.ofRows_rows]

/-- A graph splits exactly where it has the shape of a union, and the union of its parts is the
graph again. -/
theorem partitionBySizes_iff_unionShaped (h : g.Reachable) (nonempty : sizes ≠ []) :
    (UnionShaped g sizes → ∃ parts whole, g.partitionBySizes sizes = .ok parts ∧
      parts.map vertexCount = sizes ∧ disjointUnion parts = .ok whole ∧ whole.Alike g ∧
        (g.isFrozen = false → whole = g)) ∧
    (¬ UnionShaped g sizes →
      ∃ f, g.partitionBySizes sizes = .error f ∧ f.kind = .precondition) := by
  constructor
  · intro shaped
    obtain ⟨parts, split⟩ := (exists_partitionBySizes_iff h).2 shaped
    obtain ⟨counts, whole, joined, same⟩ := disjointUnion_of_partitionBySizes h nonempty split
    exact ⟨parts, whole, split, counts, joined, same⟩
  · intro shapeless
    cases refused : g.partitionBySizes sizes with
    | ok parts => exact absurd ((exists_partitionBySizes_iff h).1 ⟨parts, refused⟩) shapeless
    | error f => exact ⟨f, rfl, partitionBySizes_refused refused⟩

/-- Two edges among the first two vertices and a loop at the third: cut behind the second vertex the
graph falls apart, cut behind the first it does not. -/
theorem partitionBySizes_two_one :
    (∃ parts whole,
      (frozen ⟨⟨[[⟨1, 0⟩, ⟨0, 1⟩], [], [⟨2, 2⟩]], false⟩, .outgoing, none, false,
        64⟩).partitionBySizes [2, 1] = .ok parts ∧ parts.map vertexCount = [2, 1] ∧
      disjointUnion parts = .ok whole ∧ whole.Alike
        (frozen ⟨⟨[[⟨1, 0⟩, ⟨0, 1⟩], [], [⟨2, 2⟩]], false⟩, .outgoing, none, false, 64⟩)) ∧
    ∃ f, (frozen ⟨⟨[[⟨1, 0⟩, ⟨0, 1⟩], [], [⟨2, 2⟩]], false⟩, .outgoing, none, false,
      64⟩).partitionBySizes [1, 2] = .error f ∧ f.kind = .precondition := by
  have adjacency : Adjacency.Reachable ⟨[[⟨1, 0⟩, ⟨0, 1⟩], [], [⟨2, 2⟩]], false⟩ :=
    Adjacency.reachable_iff.2 ⟨by decide, by decide⟩
  have reachable := Reachable.frozen (.ofAdjacency adjacency .outgoing (some false))
  constructor
  · obtain ⟨parts, whole, split, counts, joined, alike, -⟩ :=
      (@partitionBySizes_iff_unionShaped _ [2, 1] reachable (by simp)).1 (by decide)
    exact ⟨parts, whole, split, counts, joined, alike⟩
  · exact (@partitionBySizes_iff_unionShaped _ [1, 2] reachable (by simp)).2 (by decide)

end Sizes

end Graph

end GraphRelay
