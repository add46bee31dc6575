import GraphRelay.Graph.Disjoint
import GraphRelay.Proofs.Graph.Edges
import Mathlib.Data.List.Nodup

/-!
# Disjoint unions

A union of frozen graphs has the joined in-rows of its inputs as its in-rows, a union of editable
graphs lists their joined pairs. No input is ever refused, as pairs of different inputs differ.
-/
namespace GraphRelay

namespace Graph

section Rows

variable (vertices edges : Nat)

@[simp] theorem length_shiftRows (rows : List (List Arc)) :
    (shiftRows vertices edges rows).length = rows.length :=
  List.length_map _

@[simp] theorem length_flatten_shiftRows (rows : List (List Arc)) :
    (shiftRows vertices edges rows).flatten.length = rows.flatten.length := by
  rw [shiftRows, List.length_flatten, List.length_flatten, List.map_map]
  congr 1
  exact List.map_congr_left fun row _ => List.length_map _

theorem length_joinRows (parts : List Adjacency) :
    (joinRows vertices edges parts).length = (parts.map Adjacency.vertexCount).sum := by
  induction parts generalizing vertices edges with
  | nil => rfl
  | cons a parts ih =>
    rw [joinRows, List.length_append, length_shiftRows, ih, List.map_cons, List.sum_cons]
    rfl

theorem length_flatten_joinRows (parts : List Adjacency) :
    (joinRows vertices edges parts).flatten.length = (parts.map Adjacency.edgeCount).sum := by
  induction parts generalizing vertices edges with
  | nil => rfl
  | cons a parts ih =>
    rw [joinRows, List.flatten_append, List.length_append, length_flatten_shiftRows, ih,
      List.map_cons, List.sum_cons]
    rfl

theorem neighbor_lt_of_mem_joinRows {parts : List Adjacency}
    (wellFormed : ∀ a ∈ parts, a.WellFormed) :
    ∀ row ∈ joinRows vertices edges parts, ∀ arc ∈ row,
      arc.neighbor < vertices + (parts.map Adjacency.vertexCount).sum := by
  induction parts generalizing vertices edges with
  | nil => simp [joinRows]
  | cons a parts ih =>
    rw [List.forall_mem_cons] at wellFormed
    intro row hrow arc harc
    rw [List.map_cons, List.sum_cons]
    rcases List.mem_append.1 hrow with own | later
    · obtain ⟨original, horiginal, rfl⟩ := List.mem_map.1 own
      obtain ⟨b, hb, rfl⟩ := List.mem_map.1 harc
      have : b.neighbor < a.vertexCount := wellFormed.1.neighbor_lt original horiginal b hb
      simp only
      omega
    · have := ih _ _ wellFormed.2 row later arc harc
      omega

end Rows

/-- A pair of vertices moved behind `offset` others. -/
def movePair (offset : Nat) (p : Nat × Nat) : Nat × Nat := (p.1 + offset, p.2 + offset)

/-- The pairs of several graphs, each moved behind the vertices of the ones before it. -/
def joinPairs (offset : Nat) : List EditableGraph → List (Nat × Nat)
  | [] => []
  | g :: rest => g.pairs.map (movePair offset) ++ joinPairs (offset + g.vertexCount) rest

theorem movePair_injective (offset : Nat) : Function.Injective (movePair offset) := by
  rintro ⟨a, b⟩ ⟨c, d⟩ h
  simpa [movePair] using h

theorem length_joinPairs (offset : Nat) (parts : List EditableGraph) :
    (joinPairs offset parts).length = (parts.map EditableGraph.edgeCount).sum := by
  induction parts generalizing offset with
  | nil => rfl
  | cons g parts ih =>
    rw [joinPairs, List.length_append, List.length_map, ih, List.map_cons, List.sum_cons]
    rfl

open EditableGraph

theorem listable_append {n k : Nat} {pairs more : List (Nat × Nat)} {multigraph flag : Bool}
    (h : Listable n pairs multigraph) (own : Listable k more flag)
    (simple : multigraph = false → flag = false) :
    Listable (n + k) (pairs ++ more.map (movePair n)) multigraph := by
  constructor
  · intro p hp
    rcases List.mem_append.1 hp with hp | hp
    · have := h.inside p hp
      omega
    · obtain ⟨q, hq, rfl⟩ := List.mem_map.1 hp
      have := own.inside q hq
      simp only [movePair]
      omega
  · intro none
    rw [List.nodup_append]
    refine ⟨h.simple none, List.Nodup.map (movePair_injective n) (own.simple (simple none)), ?_⟩
    rintro p hp q hq rfl
    obtain ⟨r, -, rfl⟩ := List.mem_map.1 hq
    have := h.inside _ hp
    simp only [movePair] at this
    omega

theorem appendEditable_listing {n : Nat} {pairs : List (Nat × Nat)} {multigraph : Bool}
    {g : EditableGraph} (h : Listable n pairs multigraph) (reachable : g.Reachable)
    (simple : multigraph = false → g.multigraph = false) :
    appendEditable (listing n pairs multigraph) g =
      .ok (listing (n + g.vertexCount) (pairs ++ g.pairs.map (movePair n)) multigraph) := by
  have listable := listable_append h reachable.eq_listing.1 simple
  have added := addPairs_listing listable
  rw [appendEditable, addVertices_listing h.inside, vertexCount_listing]
  split
  · next refused => cases added.symm.trans refused
  · next joined => cases added.symm.trans joined; rfl

theorem foldlM_appendEditable {n : Nat} {pairs : List (Nat × Nat)} {multigraph : Bool}
    {parts : List EditableGraph} (h : Listable n pairs multigraph)
    (reachable : ∀ g ∈ parts, g.Reachable)
    (simple : multigraph = false → ∀ g ∈ parts, g.multigraph = false) :
    Listable (n + (parts.map EditableGraph.vertexCount).sum) (pairs ++ joinPairs n parts)
        multigraph ∧
      parts.foldlM appendEditable (listing n pairs multigraph) =
        .ok (listing (n + (parts.map EditableGraph.vertexCount).sum)
          (pairs ++ joinPairs n parts) multigraph) := by
  induction parts generalizing n pairs with
  | nil =>
    rw [joinPairs, List.append_nil]
    exact ⟨h, rfl⟩
  | cons g parts ih =>
    rw [List.forall_mem_cons] at reachable
    have own : multigraph = false → g.multigraph = false := fun none => simple none g (by simp)
    have rest : multigraph = false → ∀ g ∈ parts, g.multigraph = false :=
      fun none g hg => simple none g (List.mem_cons_of_mem _ hg)
    obtain ⟨listable, joined⟩ :=
      ih (listable_append h reachable.1.eq_listing.1 own) reachable.2 rest
    rw [List.append_assoc, Nat.add_assoc] at listable joined
    rw [List.foldlM_cons, appendEditable_listing h reachable.1 own, joinPairs, List.map_cons,
      List.sum_cons]
    exact ⟨listable, joined⟩

theorem listable_joinPairs {parts : List EditableGraph} {multigraph : Bool}
    (reachable : ∀ g ∈ parts, g.Reachable)
    (simple : multigraph = false → ∀ g ∈ parts, g.multigraph = false) :
    Listable (parts.map EditableGraph.vertexCount).sum (joinPairs 0 parts) multigraph := by
  have joined := (@foldlM_appendEditable 0 [] _ _ ⟨by simp, by simp⟩ reachable simple).1
  rwa [Nat.zero_add] at joined

/-- The union lists the joined pairs, and none of them is refused. -/
theorem unionEditable_eq {parts : List EditableGraph} (reachable : ∀ g ∈ parts, g.Reachable) :
    unionEditable parts = .ok (listing (parts.map EditableGraph.vertexCount).sum
      (joinPairs 0 parts) (parts.any EditableGraph.multigraph)) := by
  have simple : parts.any EditableGraph.multigraph = false → ∀ g ∈ parts, g.multigraph = false := by
    simp
  have joined := (@foldlM_appendEditable 0 [] _ _ ⟨by simp, by simp⟩ reachable simple).2
  rwa [Nat.zero_add] at joined

theorem find?_variant {α : Type} (wrap : α → Graph)
    (same : ∀ a b, (wrap a).variant = (wrap b).variant) (first : α) (parts : List α) :
    (parts.map wrap).zipIdx.find? (fun (g, _) => g.variant ≠ (wrap first).variant) = none := by
  rw [List.find?_eq_none]
  rintro ⟨g, i⟩ hg
  obtain ⟨part, -, rfl⟩ := List.mem_map.1
    (List.mem_of_getElem? (List.mem_zipIdx_iff_getElem?.1 hg))
  simp [same part first]

theorem mapM_wrap {α : Type} (wrap : α → Graph) (unwrap : Graph → Except Fault α)
    (back : ∀ a, unwrap (wrap a) = .ok a) (parts : List α) :
    (parts.map wrap).mapM unwrap = .ok parts := by
  rw [mapM_eq_ok_iff, List.forall₂_map_left_iff, List.forall₂_same]
  exact fun a _ => back a

theorem disjointUnion_frozen {parts : List FrozenGraph} (nonempty : parts ≠ []) :
    disjointUnion (parts.map frozen) = .ok (frozen (unionFrozen parts)) := by
  cases parts with
  | nil => exact absurd rfl nonempty
  | cons g parts =>
    have one := find?_variant frozen (fun _ _ => rfl) g (g :: parts)
    have all := mapM_wrap frozen (requireFrozen "disjoint_union") (fun _ => rfl) (g :: parts)
    rw [List.map_cons] at one all ⊢
    unfold disjointUnion
    dsimp only
    rw [one, all]
    rfl

theorem disjointUnion_editable {parts : List EditableGraph} (nonempty : parts ≠ []) :
    disjointUnion (parts.map editable) = (unionEditable parts).map editable := by
  cases parts with
  | nil => exact absurd rfl nonempty
  | cons g parts =>
    have one := find?_variant editable (fun _ _ => rfl) g (g :: parts)
    have all := mapM_wrap editable (requireEditable "disjoint_union") (fun _ => rfl) (g :: parts)
    rw [List.map_cons] at one all ⊢
    unfold disjointUnion
    dsimp only
    rw [one, all]
    rfl

end Graph

end GraphRelay
