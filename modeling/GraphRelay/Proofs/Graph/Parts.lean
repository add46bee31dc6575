import GraphRelay.Proofs.Graph.Union

/-!
# Parts of a union

Splitting finds exactly the parts whose union has the rows or the pairs that are split: parts of the
given sizes whose edges stay inside and are numbered from 0.
-/
namespace GraphRelay

namespace Adjacency

/-- Well-formed, with every edge id below the edge count. -/
structure Closed (a : Adjacency) : Prop where
  wellFormed : a.WellFormed
  edge_lt : ∀ row ∈ a.rows, ∀ arc ∈ row, arc.edge < a.edgeCount

end Adjacency

namespace Graph

section Frozen

variable {part start first size edges : Nat} {rows : List (List Arc)} {sizes : List Nat}

theorem localArc_eq_ok {arc b : Arc} : localArc part start size first edges arc = .ok b ↔
    arc = ⟨b.neighbor + start, b.edge + first⟩ ∧ b.neighbor < size ∧ b.edge < edges := by
  obtain ⟨neighbor, edge⟩ := arc
  obtain ⟨x, i⟩ := b
  rw [localArc]
  simp only [Arc.mk.injEq, Bool.or_eq_true, decide_eq_true_eq]
  split
  · exact iff_of_false (by simp) (by omega)
  split
  · exact iff_of_false (by simp) (by omega)
  · rw [Except.ok.injEq, Arc.mk.injEq]
    omega

theorem mapM_localArc {moved : List (List Arc)} :
    rows.mapM (·.mapM (localArc part start size first edges)) = .ok moved ↔
      rows = shiftRows start first moved ∧
        ∀ row ∈ moved, ∀ arc ∈ row, arc.neighbor < size ∧ arc.edge < edges :=
  mapM_eq_ok_iff_map fun _ _ => mapM_eq_ok_iff_map fun _ _ => localArc_eq_ok

/-- Both offsets move on by what a part owns, and the remaining rows shrink with them. -/
theorem splitFrozen_eq_ok_iff {parts : List FrozenGraph} (total : rows.length = sizes.sum) :
    splitFrozen part start first rows sizes = .ok parts ↔ ∃ own : List Adjacency,
      parts = own.map (.ofAdjacency · .incoming none) ∧ own.map Adjacency.vertexCount = sizes ∧
        (∀ a ∈ own, a.Closed) ∧ joinRows start first own = rows := by
  induction sizes generalizing part start first rows parts with
  | nil =>
    obtain rfl := List.eq_nil_of_length_eq_zero (total.trans List.sum_nil)
    simp only [splitFrozen, Except.ok.injEq]
    constructor
    · rintro rfl
      exact ⟨[], rfl, rfl, by simp, rfl⟩
    · rintro ⟨own, rfl, sizes, -, -⟩
      rw [List.map_eq_nil_iff.1 sizes]
      rfl
  | cons size sizes ih =>
    rw [List.sum_cons] at total
    have later : (rows.drop size).length = sizes.sum := by
      rw [List.length_drop]
      omega
    have here : (rows.take size).length = size := by
      rw [List.length_take]
      omega
    rw [splitFrozen]
    simp only [bind_ok_iff, mapM_localArc, ih later]
    constructor
    · rintro ⟨moved, ⟨back, inside⟩, rest, ⟨own, rfl, rfl, closed, joined⟩, done⟩
      obtain rfl := Except.ok.inj done
      have count : moved.length = size := by rw [← here, back, length_shiftRows]
      have edges : (Adjacency.ofRows moved).edgeCount = (rows.take size).flatten.length := by
        rw [back, length_flatten_shiftRows]
        rfl
      refine ⟨.ofRows moved :: own, rfl, ?_, ?_, ?_⟩
      · rw [List.map_cons]
        exact congrArg (· :: _) count
      · rw [List.forall_mem_cons]
        refine ⟨⟨Adjacency.wellFormed_ofRows fun row hrow arc harc => ?_,
          fun row hrow arc harc => ?_⟩, closed⟩
        · rw [count]
          exact (inside row hrow arc harc).1
        · rw [edges]
          exact (inside row hrow arc harc).2
      · have vertices : (Adjacency.ofRows moved).vertexCount = size := count
        rw [joinRows, vertices, edges, joined]
        change shiftRows start first moved ++ rows.drop size = rows
        rw [← back, List.take_append_drop]
    · rintro ⟨own, rfl, sizes_eq, closed, joined⟩
      obtain ⟨a, own, rfl, rfl, rfl⟩ := List.map_eq_cons_iff.1 sizes_eq
      rw [List.forall_mem_cons] at closed
      have length : (shiftRows start first a.rows).length = a.vertexCount := length_shiftRows ..
      rw [joinRows] at joined
      have own_rows : rows.take a.vertexCount = shiftRows start first a.rows := by
        rw [← joined, ← length, List.take_left]
      have other_rows : rows.drop a.vertexCount =
          joinRows (start + a.vertexCount) (first + a.edgeCount) own := by
        rw [← joined, ← length, List.drop_left]
      have edges : (rows.take a.vertexCount).flatten.length = a.edgeCount := by
        rw [own_rows, length_flatten_shiftRows]
        rfl
      refine ⟨a.rows, ⟨own_rows, fun row hrow arc harc => ?_⟩, _,
        ⟨own, rfl, rfl, closed.2, ?_⟩, ?_⟩
      · rw [edges]
        exact ⟨closed.1.wellFormed.neighbor_lt row hrow arc harc,
          closed.1.edge_lt row hrow arc harc⟩
      · rw [edges, other_rows]
      · rw [closed.1.wellFormed.ofRows_rows]
        rfl

end Frozen

section Editable

open EditableGraph

variable {part start size : Nat} {multigraph : Bool} {pairs : List ((Nat × Nat) × Nat)}

/-- A part takes exactly the pairs that are its own, moved back. -/
theorem takePairs_eq_ok_iff {done : List (Nat × Nat)} {g : EditableGraph}
    (h : Listable size done multigraph) :
    takePairs part start size (listing size done multigraph) pairs = .ok g ↔
      ∃ own, pairs.map Prod.fst = own.map (movePair start) ∧
        Listable size (done ++ own) multigraph ∧ g = listing size (done ++ own) multigraph := by
  induction pairs generalizing done with
  | nil =>
    rw [takePairs, Except.ok.injEq]
    constructor
    · rintro rfl
      exact ⟨[], rfl, by rwa [List.append_nil], by rw [List.append_nil]⟩
    · rintro ⟨own, none, -, rfl⟩
      rw [List.map_eq_nil_iff.1 none.symm, List.append_nil]
  | cons pair pairs ih =>
    obtain ⟨⟨s, d⟩, i⟩ := pair
    rw [takePairs]
    simp only [Bool.or_eq_true, decide_eq_true_eq]
    constructor
    · intro taken
      split at taken
      · cases taken
      obtain ⟨next, added, later⟩ := bind_ok_iff.1 taken
      obtain ⟨hs, hd, free, rfl⟩ := addEdge_listing_eq_ok added
      obtain ⟨own, moved, listable, rfl⟩ := (ih (h.concat hs hd free)).1 later
      rw [← List.append_cons] at listable ⊢
      refine ⟨(s - start, d - start) :: own, ?_, listable, rfl⟩
      rw [List.map_cons, List.map_cons, moved, movePair, Nat.sub_add_cancel (by omega),
        Nat.sub_add_cancel (by omega)]
    · rintro ⟨own, moved, listable, rfl⟩
      obtain ⟨⟨x, y⟩, own, rfl, hp, rest⟩ := List.map_eq_cons_iff.1 moved.symm
      obtain ⟨rfl, rfl⟩ : x + start = s ∧ y + start = d := by simpa [movePair] using hp
      have inside : x < size ∧ y < size := listable.inside (x, y) (by simp)
      have free : ¬ (multigraph = false ∧ (x, y) ∈ done) := by
        rintro ⟨simple, listed⟩
        exact (List.nodup_append.1 (listable.simple simple)).2.2 _ listed (x, y) (by simp) rfl
      rw [if_neg (by omega), Nat.add_sub_cancel, Nat.add_sub_cancel,
        addEdge_listing inside.1 inside.2, if_neg free]
      refine (ih (h.concat inside.1 inside.2 fun simple listed => free ⟨simple, listed⟩)).2
        ⟨own, rest.symm, ?_, ?_⟩
      · rwa [← List.append_cons]
      · rw [← List.append_cons]

theorem joinPairs_of_splitEditable {rows : List (List Arc)} {sizes : List Nat}
    {parts : List EditableGraph} (total : rows.length = sizes.sum)
    (count : rows.flatten.length = pairs.length)
    (h : splitEditable multigraph part start rows pairs sizes = .ok parts) :
    parts.map EditableGraph.vertexCount = sizes ∧
      (∀ g ∈ parts, g.Reachable ∧ g.multigraph = multigraph) ∧
      joinPairs start parts = pairs.map Prod.fst := by
  induction sizes generalizing part start rows pairs parts with
  | nil =>
    obtain rfl := Except.ok.inj h
    obtain rfl := List.eq_nil_of_length_eq_zero (total.trans List.sum_nil)
    obtain rfl := List.eq_nil_of_length_eq_zero count.symm
    exact ⟨rfl, by simp, rfl⟩
  | cons size sizes ih =>
    rw [splitEditable, addVertices_empty] at h
    obtain ⟨g, taken, h⟩ := bind_ok_iff.1 h
    obtain ⟨rest, split, done⟩ := bind_ok_iff.1 h
    obtain rfl := Except.ok.inj done
    obtain ⟨own, moved, listable, rfl⟩ := (takePairs_eq_ok_iff ⟨by simp, by simp⟩).1 taken
    rw [List.nil_append] at listable ⊢
    have rows_split := congrArg (·.flatten.length) (List.take_append_drop size rows)
    simp only [List.flatten_append, List.length_append] at rows_split
    obtain ⟨counts, made, joined⟩ := ih (by rw [List.length_drop, total, List.sum_cons]; omega)
      (by rw [List.length_drop]; omega) split
    refine ⟨?_, ?_, ?_⟩
    · rw [List.map_cons, counts, vertexCount_listing]
    · rw [List.forall_mem_cons]
      exact ⟨⟨reachable_listing listable, rfl⟩, made⟩
    · rw [joinPairs, vertexCount_listing, joined]
      change own.map (movePair start) ++ _ = _
      rw [← moved, ← List.map_append, List.take_append_drop]

theorem splitEditable_joinPairs {rows : List (List Arc)} {own : List EditableGraph}
    (made : ∀ g ∈ own, g.Reachable ∧ g.multigraph = multigraph)
    (counts : ∀ k, (rows.take ((own.take k).map EditableGraph.vertexCount).sum).flatten.length =
      ((own.take k).map EditableGraph.edgeCount).sum)
    (joined : pairs.map Prod.fst = joinPairs start own) :
    splitEditable multigraph part start rows pairs (own.map EditableGraph.vertexCount) =
      .ok own := by
  induction own generalizing part start rows pairs with
  | nil => rfl
  | cons g own ih =>
    rw [List.forall_mem_cons] at made
    obtain ⟨⟨reachable, flag⟩, made⟩ := made
    obtain ⟨listable, eq⟩ := reachable.eq_listing
    rw [flag] at listable eq
    have edges : (rows.take g.vertexCount).flatten.length = g.edgeCount := by
      simpa using counts 1
    have later : ∀ k, ((rows.drop g.vertexCount).take
        ((own.take k).map EditableGraph.vertexCount).sum).flatten.length =
        ((own.take k).map EditableGraph.edgeCount).sum := by
      intro k
      have both := counts (k + 1)
      rw [List.take_succ_cons, List.map_cons, List.sum_cons, List.take_add, List.flatten_append,
        List.length_append, edges, List.map_cons, List.sum_cons] at both
      exact Nat.add_left_cancel both
    rw [joinPairs] at joined
    have length : (g.pairs.map (movePair start)).length = g.edgeCount := List.length_map _
    have here : (pairs.take g.edgeCount).map Prod.fst = g.pairs.map (movePair start) := by
      rw [List.map_take, joined, ← length, List.take_left]
    have rest : (pairs.drop g.edgeCount).map Prod.fst = joinPairs (start + g.vertexCount) own := by
      rw [List.map_drop, joined, ← length, List.drop_left]
    have taken : takePairs part start g.vertexCount (listing g.vertexCount [] multigraph)
        (pairs.take g.edgeCount) = .ok g :=
      (takePairs_eq_ok_iff ⟨by simp, by simp⟩).2 ⟨g.pairs, here, listable, eq⟩
    rw [List.map_cons, splitEditable, addVertices_empty, edges]
    exact bind_ok_iff.2 ⟨g, taken, bind_ok_iff.2 ⟨own, ih made later rest, rfl⟩⟩

end Editable

end Graph

end GraphRelay
