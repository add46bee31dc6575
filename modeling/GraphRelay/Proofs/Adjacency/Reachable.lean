import GraphRelay.Adjacency.Induced
import GraphRelay.Proofs.Adjacency.Arrays
import GraphRelay.Proofs.Adjacency.Coordinates

/-!
# Reachable adjacencies

Whatever makes an adjacency makes a well-formed one, so the adjacencies that can be reached are
exactly the well-formed ones.
-/
namespace GraphRelay.Adjacency

theorem length_numberFrom (start : Nat) (rows : List (List Arc)) :
    (numberFrom start rows).length = rows.length := by
  induction rows generalizing start with
  | nil => rfl
  | cons row rows ih => rw [numberFrom, List.length_cons, ih, List.length_cons]

/-- Numbering arcs keeps their neighbors. -/
theorem map_neighbor_numberFrom (start : Nat) (rows : List (List Arc)) :
    (numberFrom start rows).map (·.map Arc.neighbor) = rows.map (·.map Arc.neighbor) := by
  induction rows generalizing start with
  | nil => rfl
  | cons row rows ih =>
    have kept : (row.zipIdx start).map (Arc.neighbor ∘ Prod.fst) = row.map Arc.neighbor := by
      rw [← List.map_map, List.zipIdx_map_fst]
    rw [numberFrom, List.map_cons, ih, List.map_map, List.map_cons, ← kept]
    rfl

/-- Rows whose neighbors have a row stay well-formed when their arcs are numbered. -/
theorem wellFormed_numberFrom {rows : List (List Arc)} (start : Nat)
    (h : ∀ row ∈ rows, ∀ arc ∈ row, arc.neighbor < rows.length) :
    (ofRows (numberFrom start rows)).WellFormed := by
  apply wellFormed_ofRows
  rw [length_numberFrom]
  intro row hrow arc harc
  have same : row.map Arc.neighbor ∈ rows.map (·.map Arc.neighbor) := by
    rw [← map_neighbor_numberFrom start]
    exact List.mem_map_of_mem hrow
  obtain ⟨own, hown, heq⟩ := List.mem_map.1 same
  have neighbor : arc.neighbor ∈ own.map Arc.neighbor := by
    rw [heq]
    exact List.mem_map_of_mem harc
  obtain ⟨arc', harc', heq⟩ := List.mem_map.1 neighbor
  rw [← heq]
  exact h own hown arc' harc'

theorem neighbor_lt_of_mem_keptArcs {a : Adjacency} {chosen : List Nat} {v : Nat} {arc : Arc}
    (h : arc ∈ a.keptArcs chosen v) : arc.neighbor < chosen.length := by
  obtain ⟨parent, -, hparent⟩ := List.mem_filterMap.1 h
  obtain ⟨i, hi, rfl⟩ := Option.map_eq_some_iff.1 hparent
  exact (List.idxOf?_eq_some_iff.1 hi).1

theorem wellFormed_induced {a sub : Adjacency} {chosen parents : List Nat}
    (h : a.induced chosen = .ok (sub, parents)) : sub.WellFormed := by
  rw [induced] at h
  split at h
  · exact absurd h (by simp)
  · rw [Except.ok.injEq, Prod.mk.injEq] at h
    rw [← h.1]
    apply wellFormed_numberFrom
    rw [List.length_map]
    intro row hrow arc harc
    obtain ⟨v, -, rfl⟩ := List.mem_map.1 hrow
    exact neighbor_lt_of_mem_keptArcs harc

/-- The adjacencies that can be made. -/
inductive Reachable : Adjacency → Prop where
  | ofArrays {offsets neighbors edgeIds : List Nat} {a : Adjacency}
      (h : Adjacency.ofArrays offsets neighbors edgeIds = .ok a) : Reachable a
  | ofCoordinates {n : Nat} {rows cols : List Nat} {ids : Option (List Nat)} {a : Adjacency}
      (h : Adjacency.ofCoordinates n rows cols ids = .ok a) : Reachable a
  | sort {a : Adjacency} (h : Reachable a) : Reachable a.sort
  | transpose {a : Adjacency} (h : Reachable a) : Reachable a.transpose
  | induced {a sub : Adjacency} {chosen parents : List Nat} (h : Reachable a)
      (cut : a.induced chosen = .ok (sub, parents)) : Reachable sub

theorem Reachable.wellFormed {a : Adjacency} (h : Reachable a) : a.WellFormed := by
  induction h with
  | ofArrays h => exact wellFormed_ofArrays h
  | ofCoordinates h =>
    obtain ⟨admissible, rfl⟩ := ofCoordinates_eq_ok_iff.1 h
    exact admissible.wellFormed
  | sort _ ih => exact ih.sort
  | transpose _ _ => exact wellFormed_transpose _
  | induced _ cut _ => exact wellFormed_induced cut

theorem reachable_iff {a : Adjacency} : Reachable a ↔ a.WellFormed :=
  ⟨Reachable.wellFormed, fun h => .ofArrays h.ofArrays_views⟩

end GraphRelay.Adjacency
