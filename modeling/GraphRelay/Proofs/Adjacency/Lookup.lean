import GraphRelay.Proofs.Adjacency.IndexedSorting

/-!
# Finding edges before and after sorting

An edge is found in the order of its row, whether the row is bisected or scanned, in the rows as in the
compressed arrays. Sorting moves arcs within their rows only, so that the same edges are found again,
in the same order where parallel edges stand in the order of their ids.
-/
namespace GraphRelay.Adjacency

variable {a : Adjacency}

theorem offsets_sort (a : Adjacency) : a.sort.offsets = a.offsets := by
  rw [sort]
  split
  · rfl
  · refine offsetsFrom_congr ?_ 0
    rw [List.map_map]
    exact List.map_congr_left fun row _ => List.length_mergeSort row

theorem find_sort_perm (h : a.WellFormed) (r x : Nat) : (a.sort.find r x).Perm (a.find r x) := by
  rw [find_eq_between h.sort, find_eq_between h]
  exact between_sort_perm a r x

/-- Sorting shows in no look-up exactly when the rows ascend already or parallel edges stand in the
order of their ids. -/
theorem find_sort_iff (h : a.WellFormed) :
    (∀ r x, a.sort.find r x = a.find r x) ↔ a.sorted = true ∨ a.ParallelAscending := by
  simp only [find_eq_between h.sort, find_eq_between h]
  rw [← transpose_eq_iff h.sort h (vertexCount_sort a), transpose_sort_iff h]

/-- Look-ups answer the edges to a neighbor in the order of the row, bisected or scanned. Sorting keeps
where rows start, moves arcs within their rows, leaves every row ascending, does nothing the second
time, and lets the same edges be found. -/
theorem find_survives_sort (h : Reachable a) :
    (∀ r < a.vertexCount, ∀ x, a.find r x = ((a.row r).filter (·.neighbor = x)).map Arc.edge ∧
      a.arrays.find? r x = some (a.find r x)) ∧
    a.arrays.sort? = some a.sort.arrays ∧
    a.sort.offsets = a.offsets ∧
    (∀ v, (a.sort.row v).Perm (a.row v)) ∧
    (∀ v, (a.sort.row v).Pairwise (·.neighbor ≤ ·.neighbor)) ∧
    a.sort.sort = a.sort ∧
    (∀ r x, (a.sort.find r x).Perm (a.find r x)) ∧
    ((∀ r x, a.sort.find r x = a.find r x) ↔ a.sorted = true ∨ a.ParallelAscending) := by
  have wellFormed := h.wellFormed
  have found : ∀ r < a.vertexCount, ∀ x,
      a.find r x = ((a.row r).filter (·.neighbor = x)).map Arc.edge ∧
        a.arrays.find? r x = some (a.find r x) :=
    fun r hr x => ⟨find_eq_between wellFormed r x, find?_arrays wellFormed hr x⟩
  exact ⟨found, sort?_arrays a, offsets_sort a, fun v => ((sameRows_sort a).2 v).symm,
    wellFormed.sort.row_ascending (sorted_sort a), sort_of_sorted (sorted_sort a),
    find_sort_perm wellFormed, find_sort_iff wellFormed⟩

/-- Parallel edges with descending ids on both sides of another neighbor: sorting turns them round. -/
theorem find_survives_sort_turned :
    Reachable ⟨[[⟨1, 5⟩, ⟨0, 1⟩, ⟨1, 3⟩], []], false⟩ ∧
    find ⟨[[⟨1, 5⟩, ⟨0, 1⟩, ⟨1, 3⟩], []], false⟩ 0 1 = [5, 3] ∧
    (Arrays.mk [0, 3, 3] [1, 0, 1] [5, 1, 3] false).sort? =
      some ⟨[0, 3, 3], [0, 1, 1], [1, 3, 5], true⟩ ∧
    (Arrays.mk [0, 3, 3] [0, 1, 1] [1, 3, 5] true).find? 0 1 = some [3, 5] ∧
    ¬∀ r x, (sort ⟨[[⟨1, 5⟩, ⟨0, 1⟩, ⟨1, 3⟩], []], false⟩).find r x =
      find ⟨[[⟨1, 5⟩, ⟨0, 1⟩, ⟨1, 3⟩], []], false⟩ r x := by
  have reachable : Reachable ⟨[[⟨1, 5⟩, ⟨0, 1⟩, ⟨1, 3⟩], []], false⟩ :=
    reachable_iff.2 ⟨by decide, by decide⟩
  have turned : Reachable ⟨[[⟨0, 1⟩, ⟨1, 3⟩, ⟨1, 5⟩], []], true⟩ :=
    reachable_iff.2 ⟨by decide, by decide⟩
  have rows : sort ⟨[[⟨1, 5⟩, ⟨0, 1⟩, ⟨1, 3⟩], []], false⟩ =
      ⟨[[⟨0, 1⟩, ⟨1, 3⟩, ⟨1, 5⟩], []], true⟩ := by
    simp [sort, List.mergeSort, arcLE]
  obtain ⟨found, sorting, -, -, -, -, -, same⟩ := find_survives_sort reachable
  obtain ⟨row, array⟩ := (find_survives_sort turned).1 0 (by decide) 1
  rw [rows] at sorting
  exact ⟨reachable, (found 0 (by decide) 1).1, sorting, array.trans (congrArg some row),
    fun all => absurd (same.1 all) (by decide)⟩

end GraphRelay.Adjacency
