import GraphRelay.Proofs.Adjacency.WellFormed

/-!
# The other direction

A transpose holds the same entries with row and neighbor swapped. As entries are read row by row, the
rows of a transpose ascend whatever the rows of the original do. Sorting only permutes within rows.
-/
namespace GraphRelay.Adjacency

theorem count_arcsOf (e : Entry) (entries : List Entry) :
    (arcsOf e.row entries).count e.arc = entries.count e := by
  induction entries with
  | nil => rfl
  | cons x entries ih =>
    rw [arcsOf_cons, List.count_cons, ← ih]
    by_cases row : x.row = e.row
    · rw [if_pos row, List.count_cons]
      have same : (x.arc == e.arc) = (x == e) := by
        rw [Bool.eq_iff_iff, beq_iff_eq, beq_iff_eq]
        exact ⟨Entry.eq_of_row_of_arc row, congrArg Entry.arc⟩
      rw [same]
    · have other : (x == e) = false := beq_false_of_ne fun h => row (congrArg Entry.row h)
      rw [if_neg row, other]
      rfl

theorem perm_of_arcsOf {xs ys : List Entry} (h : ∀ v, (arcsOf v xs).Perm (arcsOf v ys)) :
    xs.Perm ys := by
  rw [List.perm_iff_count]
  intro e
  rw [← count_arcsOf, ← count_arcsOf, (h e.row).count_eq]

/-- The same rows up to the order within each row. -/
def SameRows (a b : Adjacency) : Prop :=
  a.vertexCount = b.vertexCount ∧ ∀ v, (a.row v).Perm (b.row v)

theorem SameRows.entries_perm {a b : Adjacency} (h : SameRows a b) : a.entries.Perm b.entries := by
  apply perm_of_arcsOf
  intro v
  rw [arcsOf_entries, arcsOf_entries]
  exact h.2 v

theorem row_sort (a : Adjacency) (v : Nat) :
    a.sort.row v = if a.sorted then a.row v else (a.row v).mergeSort arcLE := by
  rw [sort]
  split
  · rfl
  · rw [row, row, List.getElem?_map]
    cases a.rows[v]? with
    | none => exact (List.mergeSort_nil).symm
    | some row => rfl

@[simp] theorem sorted_sort (a : Adjacency) : a.sort.sorted = true := by
  rw [sort]
  split
  · assumption
  · rfl

theorem sort_of_sorted {a : Adjacency} (h : a.sorted = true) : a.sort = a := if_pos h

theorem sameRows_sort (a : Adjacency) : SameRows a a.sort := by
  refine ⟨(vertexCount_sort a).symm, fun v => ?_⟩
  rw [row_sort]
  split
  · exact .refl _
  · exact (List.mergeSort_perm ..).symm

theorem swap_row_lt {a : Adjacency} (h : a.WellFormed) : ∀ e ∈ a.entries.map Entry.swap,
    e.row < a.vertexCount := by
  intro e he
  obtain ⟨original, horiginal, rfl⟩ := List.mem_map.1 he
  exact h.col_lt horiginal

@[simp] theorem vertexCount_transpose (a : Adjacency) : a.transpose.vertexCount = a.vertexCount :=
  vertexCount_ofEntries ..

theorem row_transpose {a : Adjacency} (h : a.WellFormed) (v : Nat) :
    a.transpose.row v = arcsOf v (a.entries.map Entry.swap) :=
  row_ofEntries_of_lt (swap_row_lt h) v

/-- No entry is lost or doubled by transposing. -/
theorem entries_transpose_perm {a : Adjacency} (h : a.WellFormed) :
    a.transpose.entries.Perm (a.entries.map Entry.swap) := by
  rw [transpose, entries_ofEntries (swap_row_lt h)]
  exact List.mergeSort_perm ..

theorem arcsOf_map_swap (v : Nat) (entries : List Entry) :
    arcsOf v (entries.map Entry.swap) =
      (entries.filter (·.col = v)).map fun e => ⟨e.row, e.edge⟩ := by
  rw [arcsOf, List.filter_map, List.map_map]
  rfl

theorem sorted_transpose (a : Adjacency) : a.transpose.sorted = true := by
  rw [(wellFormed_transpose a).sorted_eq, rowsSorted_iff, transpose, rows_ofEntries]
  intro row hrow
  obtain ⟨v, -, rfl⟩ := List.mem_map.1 hrow
  rw [arcsOf_map_swap, List.map_map, List.pairwise_map]
  exact (pairwise_entries a).filter _

end GraphRelay.Adjacency
