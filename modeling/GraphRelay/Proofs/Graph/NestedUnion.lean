import GraphRelay.Proofs.Adjacency.IndexedSorting
import GraphRelay.Proofs.Graph.Partition

/-!
# Unions of unions

However graphs of one kind are grouped, the union of the unions of the groups is the union of them
all. Where a graph stands in the whole depends only on how many vertices and edges come before it,
and these add up over the groups.
-/
namespace GraphRelay.Graph

section Rows

variable (vertices edges : Nat)

theorem shiftRows_append (xs ys : List (List Arc)) :
    shiftRows vertices edges (xs ++ ys) = shiftRows vertices edges xs ++ shiftRows vertices edges ys :=
  List.map_append

theorem shiftRows_shiftRows (v e : Nat) (rows : List (List Arc)) :
    shiftRows vertices edges (shiftRows v e rows) = shiftRows (vertices + v) (edges + e) rows := by
  simp only [shiftRows, List.map_map]
  apply List.map_congr_left
  intro row _
  simp only [Function.comp, List.map_map]
  apply List.map_congr_left
  intro arc _
  simp only [Function.comp, Arc.mk.injEq]
  omega

theorem shiftRows_zero (rows : List (List Arc)) : shiftRows 0 0 rows = rows := by
  simp [shiftRows]

theorem shiftRows_joinRows (v e : Nat) (parts : List Adjacency) :
    shiftRows vertices edges (joinRows v e parts) = joinRows (vertices + v) (edges + e) parts := by
  induction parts generalizing v e with
  | nil => rfl
  | cons a parts ih =>
    simp only [joinRows, shiftRows_append, shiftRows_shiftRows, ih, Nat.add_assoc]

theorem joinRows_append (xs ys : List Adjacency) :
    joinRows vertices edges (xs ++ ys) = joinRows vertices edges xs ++
      joinRows (vertices + (xs.map Adjacency.vertexCount).sum)
        (edges + (xs.map Adjacency.edgeCount).sum) ys := by
  induction xs generalizing vertices edges with
  | nil => simp [joinRows]
  | cons a xs ih => simp [joinRows, ih, Nat.add_assoc]

theorem joinRows_groups (groups : List (List Adjacency)) :
    joinRows vertices edges (groups.map fun group => .ofRows (joinRows 0 0 group)) =
      joinRows vertices edges groups.flatten := by
  induction groups generalizing vertices edges with
  | nil => rfl
  | cons group groups ih =>
    have count : (Adjacency.ofRows (joinRows 0 0 group)).vertexCount =
        (group.map Adjacency.vertexCount).sum := length_joinRows ..
    have arcs : (Adjacency.ofRows (joinRows 0 0 group)).edgeCount =
        (group.map Adjacency.edgeCount).sum := length_flatten_joinRows ..
    have moved := shiftRows_joinRows vertices edges 0 0 group
    rw [List.map_cons, joinRows, count, arcs, ih, List.flatten_cons, joinRows_append]
    exact congrArg (· ++ _) moved

end Rows

theorem unionFrozen_groups (groups : List (List FrozenGraph)) :
    unionFrozen (groups.map unionFrozen) = unionFrozen groups.flatten := by
  have rows := joinRows_groups 0 0 (groups.map (·.map (·.view .incoming)))
  have flags : (groups.map unionFrozen).any FrozenGraph.multigraph =
      groups.flatten.any FrozenGraph.multigraph := by
    rw [List.any_map, List.any_flatten]
    rfl
  rw [List.map_map, ← List.map_flatten] at rows
  rw [unionFrozen, flags, List.map_map]
  exact congrArg (fun rows => FrozenGraph.ofAdjacency (.ofRows rows) .incoming _) rows

theorem view_unionFrozen_singleton {g : FrozenGraph} (h : g.Reachable) :
    (unionFrozen [g]).view .incoming = g.view .incoming := by
  have own := (h.view .incoming).1
  rw [view_unionFrozen]
  simp only [List.map_cons, List.map_nil, joinRows, shiftRows_zero, List.append_nil]
  exact own.ofRows_rows

/-- Compressed arrays to which those of further graphs are appended, and how many vertices and edges
they hold. -/
structure Concatenation where
  offsets : List Nat
  neighbors : List Nat
  edgeIds : List Nat
  vertices : Nat
  edges : Nat

namespace Concatenation

def empty : Concatenation := ⟨[0], [], [], 0, 0⟩

/-- The first offset of `a` is left out: the last one that is there says the same. -/
def append (c : Concatenation) (a : Adjacency) : Concatenation where
  offsets := c.offsets ++ a.offsets.tail.map (· + c.edges)
  neighbors := c.neighbors ++ a.neighbors.map (· + c.vertices)
  edgeIds := c.edgeIds ++ a.edgeIds.map (· + c.edges)
  vertices := c.vertices + a.vertexCount
  edges := c.edges + a.edgeCount

/-- The arrays of an adjacency with the given rows. -/
def ofRows (rows : List (List Arc)) : Concatenation where
  offsets := (Adjacency.ofRows rows).offsets
  neighbors := (Adjacency.ofRows rows).neighbors
  edgeIds := (Adjacency.ofRows rows).edgeIds
  vertices := rows.length
  edges := rows.flatten.length

theorem offsetsFrom_add (d start : Nat) (rows : List (List Arc)) :
    Adjacency.offsetsFrom (start + d) rows = (Adjacency.offsetsFrom start rows).map (· + d) := by
  induction rows generalizing start with
  | nil => rfl
  | cons row rows ih =>
    have moved : start + d + row.length = start + row.length + d := by omega
    simp only [Adjacency.offsetsFrom, List.map_cons, moved, ih]

theorem offsetsFrom_append (start : Nat) (xs ys : List (List Arc)) :
    Adjacency.offsetsFrom start (xs ++ ys) = Adjacency.offsetsFrom start xs ++
      (Adjacency.offsetsFrom 0 ys).tail.map (· + (start + xs.flatten.length)) := by
  induction xs generalizing start with
  | nil =>
    have moved := offsetsFrom_add start 0 ys
    rw [Nat.zero_add] at moved
    cases ys <;> simp_all [Adjacency.offsetsFrom]
  | cons x xs ih => simp [Adjacency.offsetsFrom, ih, Nat.add_assoc]

theorem offsetsFrom_shiftRows (start vertices edges : Nat) (rows : List (List Arc)) :
    Adjacency.offsetsFrom start (shiftRows vertices edges rows) =
      Adjacency.offsetsFrom start rows := by
  apply Adjacency.offsetsFrom_congr
  simp [shiftRows]

theorem append_ofRows (rows : List (List Arc)) (a : Adjacency) :
    (ofRows rows).append a = ofRows (rows ++ shiftRows rows.length rows.flatten.length a.rows) := by
  have offsets := offsetsFrom_append 0 rows (shiftRows rows.length rows.flatten.length a.rows)
  rw [offsetsFrom_shiftRows, Nat.zero_add, shiftRows] at offsets
  simp only [append, ofRows, Adjacency.offsets, Adjacency.ofRows, offsets, Adjacency.neighbors,
    Adjacency.edgeIds, Adjacency.arcs, Adjacency.vertexCount, Adjacency.edgeCount, shiftRows,
    List.flatten_append, List.map_append, List.length_append, List.length_map, ← List.map_flatten,
    List.map_map]
  rfl

theorem foldl_append (rows : List (List Arc)) (parts : List Adjacency) :
    parts.foldl append (ofRows rows) =
      ofRows (rows ++ joinRows rows.length rows.flatten.length parts) := by
  induction parts generalizing rows with
  | nil => simp [joinRows]
  | cons a parts ih =>
    rw [List.foldl_cons, append_ofRows, ih, joinRows, List.append_assoc, List.length_append,
      List.flatten_append, List.length_append, length_shiftRows, length_flatten_shiftRows]
    rfl

end Concatenation

/-- The union of frozen graphs from their arrays of in-edges. -/
def unionArrays (graphs : List FrozenGraph) : Except Fault FrozenGraph :=
  let c := (graphs.map (·.view .incoming)).foldl Concatenation.append .empty
  FrozenGraph.ofArrays c.offsets c.neighbors c.edgeIds .incoming (some (graphs.any FrozenGraph.multigraph))

theorem unionArrays_eq {graphs : List FrozenGraph} (reachable : ∀ g ∈ graphs, g.Reachable) :
    unionArrays graphs = .ok (unionFrozen graphs) := by
  have wellFormed : ∀ a ∈ graphs.map (·.view .incoming), a.WellFormed := by
    intro a ha
    obtain ⟨g, hg, rfl⟩ := List.mem_map.1 ha
    exact ((reachable g hg).view .incoming).1
  have joined := Concatenation.foldl_append [] (graphs.map (·.view .incoming))
  have adopted := (wellFormed_ofRows_joinRows wellFormed).ofArrays_views
  have start : Concatenation.empty = .ofRows [] := rfl
  rw [unionArrays, start, joined]
  simp only [FrozenGraph.ofArrays, Concatenation.ofRows, List.nil_append, List.flatten_nil,
    List.length_nil, adopted]
  rfl

section Pairs

variable (offset : Nat)

theorem joinPairs_append (xs ys : List EditableGraph) :
    joinPairs offset (xs ++ ys) = joinPairs offset xs ++
      joinPairs (offset + (xs.map EditableGraph.vertexCount).sum) ys := by
  induction xs generalizing offset with
  | nil => simp [joinPairs]
  | cons g xs ih => simp [joinPairs, ih, Nat.add_assoc]

theorem map_movePair_joinPairs (start : Nat) (parts : List EditableGraph) :
    (joinPairs start parts).map (movePair offset) = joinPairs (offset + start) parts := by
  induction parts generalizing start with
  | nil => rfl
  | cons g parts ih =>
    have moved : movePair offset ∘ movePair start = movePair (offset + start) := by
      funext p
      simp only [Function.comp, movePair, Prod.mk.injEq]
      omega
    simp only [joinPairs, List.map_append, List.map_map, moved, ih, Nat.add_assoc]

open EditableGraph

/-- The graph on the vertices of all parts that lists their joined pairs. -/
def joined (parts : List EditableGraph) : EditableGraph :=
  listing (parts.map EditableGraph.vertexCount).sum (joinPairs 0 parts)
    (parts.any EditableGraph.multigraph)

theorem joinPairs_groups (groups : List (List EditableGraph)) :
    joinPairs offset (groups.map joined) = joinPairs offset groups.flatten := by
  induction groups generalizing offset with
  | nil => rfl
  | cons group groups ih =>
    have moved := map_movePair_joinPairs offset 0 group
    have count : (joined group).vertexCount = (group.map EditableGraph.vertexCount).sum :=
      vertexCount_listing
    rw [List.map_cons, joinPairs, count, ih, List.flatten_cons, joinPairs_append]
    exact congrArg (· ++ _) moved

theorem joined_groups (groups : List (List EditableGraph)) :
    joined (groups.map joined) = joined groups.flatten := by
  have counts : ((groups.map joined).map EditableGraph.vertexCount).sum =
      (groups.flatten.map EditableGraph.vertexCount).sum := by
    rw [List.map_map, List.map_flatten, List.sum_flatten, List.map_map]
    congr 1
    exact List.map_congr_left fun group _ => vertexCount_listing
  have flags : (groups.map joined).any EditableGraph.multigraph =
      groups.flatten.any EditableGraph.multigraph := by
    rw [List.any_map, List.any_flatten]
    rfl
  rw [joined, counts, flags, joinPairs_groups]
  rfl

theorem reachable_joined {parts : List EditableGraph} (reachable : ∀ g ∈ parts, g.Reachable) :
    (joined parts).Reachable :=
  reachable_listing (listable_joinPairs reachable (by simp))

theorem joined_singleton {g : EditableGraph} (h : g.Reachable) : joined [g] = g := by
  have pairs : joinPairs 0 [g] = g.pairs := by
    have still : movePair 0 = id := rfl
    simp [joinPairs, still]
  have listed := h.eq_listing.2
  simp only [joined, pairs, List.map_cons, List.map_nil, List.sum_cons, List.sum_nil, Nat.add_zero,
    List.any_cons, List.any_nil, Bool.or_false]
  exact listed.symm

end Pairs

/-- Frozen graphs with the same in-rows and flag, or editable ones that are equal. -/
def SameGraph : Graph → Graph → Prop
  | frozen g, frozen h => g.view .incoming = h.view .incoming ∧ g.multigraph = h.multigraph
  | editable g, editable h => g = h
  | _, _ => False

theorem exists_groups {α : Type} {wrap : α → Graph} {groups : List (List Graph)} {parts : List α}
    (flat : groups.flatten = parts.map wrap) :
    ∃ own : List (List α), groups = own.map (List.map wrap) := by
  induction groups generalizing parts with
  | nil => exact ⟨[], rfl⟩
  | cons group groups ih =>
    obtain ⟨first, rest, -, rfl, later⟩ := List.append_eq_map_iff.1 flat
    obtain ⟨own, rfl⟩ := ih later.symm
    exact ⟨first :: own, rfl⟩

theorem disjointUnion_joined {parts : List EditableGraph} (nonempty : parts ≠ [])
    (reachable : ∀ g ∈ parts, g.Reachable) :
    disjointUnion (parts.map editable) = .ok (editable (joined parts)) := by
  rw [disjointUnion_editable nonempty, unionEditable_eq reachable]
  rfl

/-- Nested unions of graphs that are joined by `join`, where joined groups come to the same as all
their members joined at once. -/
theorem nested_of_join {α : Type} {wrap : α → Graph} {join : List α → α} {made : α → Prop}
    (union : ∀ parts, parts ≠ [] → (∀ g ∈ parts, made g) →
      disjointUnion (parts.map wrap) = .ok (wrap (join parts)))
    (kept : ∀ parts, (∀ g ∈ parts, made g) → made (join parts))
    (nested : ∀ groups : List (List α), join (groups.map join) = join groups.flatten)
    {groups : List (List α)} (nonempty : groups ≠ []) (inner : ∀ group ∈ groups, group ≠ [])
    (own : ∀ group ∈ groups, ∀ g ∈ group, made g) :
    ∃ unions whole, (groups.map (List.map wrap)).mapM disjointUnion = .ok unions ∧
      disjointUnion unions = .ok whole ∧
      disjointUnion (groups.map (List.map wrap)).flatten = .ok whole := by
  have unions : (groups.map (List.map wrap)).mapM disjointUnion =
      .ok ((groups.map join).map wrap) := by
    rw [mapM_eq_ok_iff, List.map_map, List.forall₂_map_left_iff, List.forall₂_map_right_iff,
      List.forall₂_same]
    exact fun group hgroup => union group (inner group hgroup) (own group hgroup)
  have outer := union (groups.map join) (by simpa using nonempty) (by
    simp only [List.forall_mem_map]
    exact fun group hgroup => kept group (own group hgroup))
  have flat := union groups.flatten (by
    cases groups with
    | nil => exact absurd rfl nonempty
    | cons group groups => simp [inner group]) (by
    simp only [List.forall_mem_flatten]
    exact own)
  refine ⟨_, _, unions, outer, ?_⟩
  rw [← List.map_flatten, flat, nested]

theorem disjointUnion_singleton {g : Graph} (h : g.Reachable) :
    ∃ alone, disjointUnion [g] = .ok alone ∧ SameGraph alone g := by
  cases h with
  | @editable g h =>
    have made := @disjointUnion_joined [g] (by simp) (by simpa using h)
    exact ⟨_, made, joined_singleton h⟩
  | @frozen g h =>
    have made := @disjointUnion_frozen [g] (by simp)
    exact ⟨_, made, view_unionFrozen_singleton h, Bool.or_false _⟩

/-- The union of the unions of groups is the union of all their graphs, and that of one graph alone
is the graph again. -/
theorem disjointUnion_nested {groups : List (List Graph)} (nonempty : groups ≠ [])
    (inner : ∀ group ∈ groups, group ≠ [])
    (reachable : ∀ g ∈ groups.flatten, g.Reachable)
    (sameKind : ∀ g ∈ groups.flatten, ∀ h ∈ groups.flatten, g.variant = h.variant) :
    (∃ unions whole, groups.mapM disjointUnion = .ok unions ∧ disjointUnion unions = .ok whole ∧
      disjointUnion groups.flatten = .ok whole) ∧
    (∀ g ∈ groups.flatten, ∃ alone, disjointUnion [g] = .ok alone ∧ SameGraph alone g) ∧
    ∀ parts : List FrozenGraph, parts ≠ [] → (∀ g ∈ parts, g.Reachable) →
      disjointUnion (parts.map frozen) = (unionArrays parts).map frozen := by
  refine ⟨?_, fun g hg => disjointUnion_singleton (reachable g hg), ?_⟩
  · rcases exists_of_sameKind sameKind with ⟨parts, flat⟩ | ⟨parts, flat⟩
    · obtain ⟨own, rfl⟩ := exists_groups flat
      simp only [List.forall_mem_map, List.forall_mem_flatten, reachable_editable, ne_eq,
        List.map_eq_nil_iff] at nonempty inner reachable
      exact nested_of_join (fun _ => disjointUnion_joined) (fun _ => reachable_joined)
        joined_groups nonempty inner reachable
    · obtain ⟨own, rfl⟩ := exists_groups flat
      simp only [List.forall_mem_map, ne_eq, List.map_eq_nil_iff] at nonempty inner
      exact @nested_of_join _ _ _ (fun _ => True) (fun _ some _ => disjointUnion_frozen some)
        (fun _ _ => trivial) unionFrozen_groups _ nonempty inner (by simp)
  · intro parts some made
    rw [disjointUnion_frozen some, unionArrays_eq made]
    rfl

/-- A graph given by source with an isolated vertex, one without vertices, and one given by
destination with two loops whose ids are not in order. -/
theorem disjointUnion_nested_three :
    ∃ unions whole,
      [[.frozen ⟨⟨[[⟨1, 0⟩, ⟨0, 1⟩], []], false⟩, .outgoing, none, false, 64⟩,
        .frozen ⟨⟨[], true⟩, .incoming, none, false, 64⟩],
        [.frozen ⟨⟨[[⟨0, 7⟩, ⟨0, 3⟩]], true⟩, .incoming, none, true, 64⟩]].mapM disjointUnion =
          .ok unions ∧
      disjointUnion unions = .ok whole ∧
      disjointUnion [.frozen ⟨⟨[[⟨1, 0⟩, ⟨0, 1⟩], []], false⟩, .outgoing, none, false, 64⟩,
        .frozen ⟨⟨[], true⟩, .incoming, none, false, 64⟩,
        .frozen ⟨⟨[[⟨0, 7⟩, ⟨0, 3⟩]], true⟩, .incoming, none, true, 64⟩] = .ok whole := by
  have first : Adjacency.Reachable ⟨[[⟨1, 0⟩, ⟨0, 1⟩], []], false⟩ :=
    Adjacency.reachable_iff.2 ⟨by decide, by decide⟩
  have second : Adjacency.Reachable ⟨[], true⟩ :=
    Adjacency.reachable_iff.2 ⟨by decide, by decide⟩
  have third : Adjacency.Reachable ⟨[[⟨0, 7⟩, ⟨0, 3⟩]], true⟩ :=
    Adjacency.reachable_iff.2 ⟨by decide, by decide⟩
  have reachable : ∀ g ∈
      [[.frozen ⟨⟨[[⟨1, 0⟩, ⟨0, 1⟩], []], false⟩, .outgoing, none, false, 64⟩,
        .frozen ⟨⟨[], true⟩, .incoming, none, false, 64⟩],
        [frozen ⟨⟨[[⟨0, 7⟩, ⟨0, 3⟩]], true⟩, .incoming, none, true, 64⟩]].flatten, g.Reachable := by
    simp only [List.flatten_cons, List.cons_append, List.nil_append, List.flatten_nil,
      List.forall_mem_cons]
    exact ⟨.frozen (.ofAdjacency first .outgoing (some false)),
      .frozen (.ofAdjacency second .incoming (some false)),
      .frozen (.ofAdjacency third .incoming (some true)), by simp⟩
  exact (disjointUnion_nested (by simp) (by simp) reachable (by simp [variant])).1

end GraphRelay.Graph
