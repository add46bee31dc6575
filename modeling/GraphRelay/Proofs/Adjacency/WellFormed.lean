import GraphRelay.Proofs.Adjacency.CountingSort

/-!
# Well-formed adjacencies

The rows of a well-formed adjacency determine it, as the flag says whether they ascend. What is put
together from entries, transposed or sorted is well-formed.
-/
namespace GraphRelay.Adjacency

theorem rowsSorted_iff {rows : List (List Arc)} :
    rowsSorted rows = true ↔ ∀ row ∈ rows, (row.map Arc.neighbor).Pairwise (· ≤ ·) := by
  rw [rowsSorted, List.all_eq_true]
  exact forall_congr' fun row => forall_congr' fun _ => isAscending_iff

theorem wellFormed_ofRows {rows : List (List Arc)}
    (h : ∀ row ∈ rows, ∀ arc ∈ row, arc.neighbor < rows.length) : (ofRows rows).WellFormed :=
  ⟨h, rfl⟩

theorem WellFormed.ofRows_rows {a : Adjacency} (h : a.WellFormed) : ofRows a.rows = a := by
  rw [ofRows, ← h.sorted_eq]

theorem WellFormed.eq_of_rows_eq {a b : Adjacency} (ha : a.WellFormed) (hb : b.WellFormed)
    (h : a.rows = b.rows) : a = b := by
  rw [← ha.ofRows_rows, ← hb.ofRows_rows, h]

theorem row_eq_of_lt {a : Adjacency} {v : Nat} (h : v < a.vertexCount) :
    a.rows[v]? = some (a.row v) := by
  rw [row, List.getElem?_eq_getElem h, Option.getD_some]

theorem row_eq_nil_of_le {a : Adjacency} {v : Nat} (h : a.vertexCount ≤ v) : a.row v = [] := by
  rw [row, List.getElem?_eq_none h, Option.getD_none]

theorem WellFormed.row_ascending {a : Adjacency} (h : a.WellFormed) (sorted : a.sorted = true) (v : Nat) :
    (a.row v).Pairwise (·.neighbor ≤ ·.neighbor) := by
  by_cases hv : v < a.vertexCount
  · have all := rowsSorted_iff.1 (h.sorted_eq.symm.trans sorted)
    exact List.pairwise_map.1 (all _ (List.mem_of_getElem? (row_eq_of_lt hv)))
  · rw [row_eq_nil_of_le (Nat.le_of_not_lt hv)]
    exact .nil

theorem row_mem_of_mem {a : Adjacency} {v : Nat} {arc : Arc} (h : arc ∈ a.row v) :
    a.row v ∈ a.rows := by
  by_cases hv : v < a.vertexCount
  · exact List.mem_of_getElem? (row_eq_of_lt hv)
  · rw [row_eq_nil_of_le (Nat.le_of_not_lt hv)] at h
    exact absurd h List.not_mem_nil

theorem WellFormed.col_lt {a : Adjacency} (h : a.WellFormed) {e : Entry} (he : e ∈ a.entries) :
    e.col < a.vertexCount := by
  have harc := mem_entries.1 he
  exact h.neighbor_lt _ (row_mem_of_mem harc) _ harc

theorem rows_ofEntries (n : Nat) (entries : List Entry) :
    (ofEntries n entries).rows = (List.range n).map fun v => arcsOf v entries :=
  distribute_eq n entries

@[simp] theorem vertexCount_ofEntries (n : Nat) (entries : List Entry) :
    (ofEntries n entries).vertexCount = n := by
  rw [vertexCount, rows_ofEntries, List.length_map, List.length_range]

theorem row_ofEntries {n v : Nat} (entries : List Entry) (h : v < n) :
    (ofEntries n entries).row v = arcsOf v entries := by
  rw [row, rows_ofEntries, List.getElem?_map, List.getElem?_range h]
  rfl

theorem wellFormed_ofEntries {n : Nat} {entries : List Entry} (h : ∀ e ∈ entries, e.col < n) :
    (ofEntries n entries).WellFormed := by
  apply wellFormed_ofRows
  rw [distribute_eq, List.length_map, List.length_range]
  intro row hrow arc harc
  obtain ⟨v, -, rfl⟩ := List.mem_map.1 hrow
  exact h _ (mem_arcsOf.1 harc)

/-- Entries of existing rows all arrive, each row in the order it was listed. -/
theorem row_ofEntries_of_lt {n : Nat} {entries : List Entry} (h : ∀ e ∈ entries, e.row < n)
    (v : Nat) : (ofEntries n entries).row v = arcsOf v entries := by
  by_cases hv : v < n
  · exact row_ofEntries entries hv
  · rw [row_eq_nil_of_le (by rw [vertexCount_ofEntries]; omega)]
    refine (arcsOf_eq_nil fun e he => ?_).symm
    have := h e he
    omega

theorem entries_ofEntries {n : Nat} {entries : List Entry} (h : ∀ e ∈ entries, e.row < n) :
    (ofEntries n entries).entries = entries.mergeSort rowLE :=
  entries_eq_mergeSort (row_ofEntries_of_lt h)

/-- Its own entries give a well-formed adjacency back. -/
theorem WellFormed.ofEntries_entries {a : Adjacency} (h : a.WellFormed) :
    ofEntries a.vertexCount a.entries = a := by
  have own : (ofEntries a.vertexCount a.entries).WellFormed := wellFormed_ofEntries fun _ => h.col_lt
  refine own.eq_of_rows_eq h (List.ext_getElem? fun v => ?_)
  by_cases hv : v < a.vertexCount
  · rw [row_eq_of_lt hv, row_eq_of_lt (by rwa [vertexCount_ofEntries]), row_ofEntries _ hv,
      arcsOf_entries]
  · rw [List.getElem?_eq_none (Nat.le_of_not_lt hv), List.getElem?_eq_none]
    have := vertexCount_ofEntries a.vertexCount a.entries
    rw [vertexCount] at this
    omega

theorem wellFormed_transpose (a : Adjacency) : a.transpose.WellFormed := by
  apply wellFormed_ofEntries
  intro e he
  obtain ⟨original, horiginal, rfl⟩ := List.mem_map.1 he
  exact row_lt_of_mem_entries horiginal

theorem arcLE_iff {x y : Arc} : arcLE x y = true ↔
    x.neighbor < y.neighbor ∨ x.neighbor = y.neighbor ∧ x.edge ≤ y.edge := by
  simp [arcLE]

theorem arcLE_trans (x y z : Arc) (hxy : arcLE x y = true) (hyz : arcLE y z = true) :
    arcLE x z = true := by
  rw [arcLE_iff] at hxy hyz ⊢
  omega

theorem arcLE_total (x y : Arc) : (arcLE x y || arcLE y x) = true := by
  rw [Bool.or_eq_true, arcLE_iff, arcLE_iff]
  omega

theorem neighbor_le_of_arcLE {x y : Arc} (h : arcLE x y = true) : x.neighbor ≤ y.neighbor := by
  rw [arcLE_iff] at h
  omega

theorem rowsSorted_mergeSort (rows : List (List Arc)) :
    rowsSorted (rows.map (·.mergeSort arcLE)) = true := by
  rw [rowsSorted_iff]
  intro row hrow
  obtain ⟨row, -, rfl⟩ := List.mem_map.1 hrow
  rw [List.pairwise_map]
  exact (List.pairwise_mergeSort arcLE_trans arcLE_total row).imp neighbor_le_of_arcLE

@[simp] theorem vertexCount_sort (a : Adjacency) : a.sort.vertexCount = a.vertexCount := by
  rw [sort]
  split
  · rfl
  · exact List.length_map _

theorem WellFormed.sort {a : Adjacency} (h : a.WellFormed) : a.sort.WellFormed := by
  rw [Adjacency.sort]
  split
  · exact h
  · refine ⟨fun row hrow arc harc => ?_, (rowsSorted_mergeSort a.rows).symm⟩
    rw [List.length_map]
    obtain ⟨original, horiginal, rfl⟩ := List.mem_map.1 hrow
    exact h.neighbor_lt original horiginal arc (List.mem_mergeSort.1 harc)

end GraphRelay.Adjacency
