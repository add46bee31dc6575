import GraphRelay.Proofs.Adjacency.Indexing
import GraphRelay.Proofs.Adjacency.Reachable

/-!
# Transposing twice

A transpose lists the neighbors of a row in the order of the rows that they come from, and parallel
edges as they stood there. Transposed once more every row is back, arranged by neighbor with parallel
edges left as they were. Sorting puts parallel edges in the order of their ids, so the two agree where
the ids are in order already.
-/
namespace GraphRelay

def Arc.neighborLE (x y : Arc) : Bool := x.neighbor ≤ y.neighbor

namespace Adjacency

/-- Every row arranged by neighbor, parallel edges left in their order. -/
def arrange (a : Adjacency) : Adjacency := ⟨a.rows.map (·.mergeSort Arc.neighborLE), true⟩

variable {a : Adjacency}

/-- The rows of a transpose come by neighbor, and for one neighbor as the entries are listed. -/
theorem row_transpose_ofEntries {n : Nat} {entries : List Entry}
    (inside : ∀ e ∈ entries, e.row < n ∧ e.col < n) (v : Nat) :
    (ofEntries n entries).transpose.row v =
      (arcsOf v (entries.map Entry.swap)).mergeSort Arc.neighborLE := by
  have wellFormed : (ofEntries n entries).WellFormed :=
    wellFormed_ofEntries fun e he => (inside e he).2
  rw [row_transpose wellFormed, arcsOf_map_swap, entries_ofEntries fun e he => (inside e he).1,
    filter_mergeSort_rowLE, arcsOf_map_swap]
  exact List.map_mergeSort fun _ _ _ _ => rfl

theorem row_transpose_transpose (h : a.WellFormed) (v : Nat) :
    a.transpose.transpose.row v = (a.row v).mergeSort Arc.neighborLE := by
  have inside : ∀ e ∈ a.entries.map Entry.swap, e.row < a.vertexCount ∧ e.col < a.vertexCount := by
    intro e he
    obtain ⟨original, horiginal, rfl⟩ := List.mem_map.1 he
    exact ⟨h.col_lt horiginal, row_lt_of_mem_entries horiginal⟩
  have back : (a.entries.map Entry.swap).map Entry.swap = a.entries := by
    rw [List.map_map]
    exact List.map_id _
  rw [← arcsOf_entries a, ← back]
  exact row_transpose_ofEntries inside v

theorem transpose_transpose (h : a.WellFormed) : a.transpose.transpose = a.arrange := by
  have rows : a.transpose.transpose.rows = a.rows.map (·.mergeSort Arc.neighborLE) := by
    rw [rows_eq_map_row a.transpose.transpose, vertexCount_transpose, vertexCount_transpose,
      rows_eq_map_row a, List.map_map]
    exact List.map_congr_left fun v _ => row_transpose_transpose h v
  calc a.transpose.transpose
      = ⟨a.transpose.transpose.rows, a.transpose.transpose.sorted⟩ := rfl
    _ = a.arrange := by rw [rows, sorted_transpose, arrange]

theorem arrange_of_sorted (h : a.WellFormed) (sorted : a.sorted = true) : a.arrange = a := by
  have own : ∀ row ∈ a.rows, row.mergeSort Arc.neighborLE = row := by
    intro row hrow
    have ascending := rowsSorted_iff.1 (h.sorted_eq.symm.trans sorted) row hrow
    rw [List.pairwise_map] at ascending
    exact List.mergeSort_of_pairwise (ascending.imp fun le => decide_eq_true le)
  calc a.arrange = ⟨a.rows, a.sorted⟩ := by rw [arrange, List.map_congr_left own, List.map_id', sorted]
    _ = a := rfl

theorem transpose_transpose_eq_self_iff (h : a.WellFormed) :
    a.transpose.transpose = a ↔ a.sorted = true := by
  constructor
  · intro same
    rw [← same]
    exact sorted_transpose _
  · intro sorted
    rw [transpose_transpose h, arrange_of_sorted h sorted]

theorem transpose_transpose_eq_sort_iff (h : a.WellFormed) :
    a.transpose.transpose = a.sort ↔ a.sorted = true ∨ a.ParallelAscending := by
  rw [← transpose_sort_iff h]
  have transposed := (transpose_transpose_eq_self_iff (wellFormed_transpose a)).2 (sorted_transpose a)
  constructor
  · intro same
    rw [← same, transposed]
  · intro same
    rw [← same, (transpose_transpose_eq_self_iff h.sort).2 (sorted_sort a)]

/-- A transpose holds the same entries, its rows ascend, and parallel edges keep their order. Transposing
twice arranges each row by neighbor, which leaves exactly the sorted adjacencies as they are and comes
to sorting where the rows ascend already or parallel edges stand in the order of their ids. -/
theorem transpose_arranges (h : Reachable a) :
    a.transpose.vertexCount = a.vertexCount ∧
    a.transpose.entries.Perm (a.entries.map Entry.swap) ∧
    a.transpose.sorted = true ∧
    (∀ v, (a.transpose.row v).Pairwise (·.neighbor ≤ ·.neighbor)) ∧
    (∀ r x, a.transpose.between x r = a.between r x) ∧
    a.transpose.transpose = a.arrange ∧
    (a.transpose.transpose = a ↔ a.sorted = true) ∧
    (a.transpose.transpose = a.sort ↔ a.sorted = true ∨ a.ParallelAscending) := by
  have wellFormed := h.wellFormed
  have sorted := sorted_transpose a
  exact ⟨vertexCount_transpose a, entries_transpose_perm wellFormed, sorted,
    (wellFormed_transpose a).row_ascending sorted, between_transpose wellFormed,
    transpose_transpose wellFormed, transpose_transpose_eq_self_iff wellFormed,
    transpose_transpose_eq_sort_iff wellFormed⟩

/-- Parallel edges out of the order of their ids stay so, which is neither the adjacency nor what
sorting makes of it. -/
theorem transpose_arranges_descending :
    Reachable ⟨[[⟨1, 5⟩, ⟨1, 3⟩, ⟨0, 1⟩], []], false⟩ ∧
    transpose (transpose ⟨[[⟨1, 5⟩, ⟨1, 3⟩, ⟨0, 1⟩], []], false⟩) =
      ⟨[[⟨0, 1⟩, ⟨1, 5⟩, ⟨1, 3⟩], []], true⟩ ∧
    transpose (transpose ⟨[[⟨1, 5⟩, ⟨1, 3⟩, ⟨0, 1⟩], []], false⟩) ≠
      sort ⟨[[⟨1, 5⟩, ⟨1, 3⟩, ⟨0, 1⟩], []], false⟩ := by
  have reachable : Reachable ⟨[[⟨1, 5⟩, ⟨1, 3⟩, ⟨0, 1⟩], []], false⟩ :=
    reachable_iff.2 ⟨by decide, by decide⟩
  obtain ⟨-, -, -, -, -, twice, -, sorting⟩ := transpose_arranges reachable
  refine ⟨reachable, twice.trans ?_, fun same => absurd (sorting.1 same) (by decide)⟩
  simp [arrange, List.mergeSort, Arc.neighborLE]

end Adjacency

end GraphRelay
