import GraphRelay.Proofs.Adjacency.Transpose
import GraphRelay.Proofs.Bisection

/-!
# Parallel edges

The edges from one row to one neighbor, in the order of the row, are what `find` answers, bisected or
scanned. A transpose keeps this order, and sorting puts it in the order of the ids unless the rows
ascend already. So sorting before transposing changes the transpose exactly when it finds parallel
edges to rearrange.
-/
namespace GraphRelay.Adjacency

/-- The edges from row `r` to neighbor `x`, in the order of the row. -/
def between (a : Adjacency) (r x : Nat) : List Nat :=
  ((a.row r).filter (·.neighbor = x)).map Arc.edge

/-- An ascending row is partitioned at every property that goes down. -/
theorem partitioned_of_ascending {row : List Arc}
    (ascending : row.Pairwise (·.neighbor ≤ ·.neighbor)) {p : Nat → Prop} [DecidablePred p]
    (down : ∀ m n, m ≤ n → p n → p m) :
    row.Pairwise fun b c => decide (p c.neighbor) = true → decide (p b.neighbor) = true :=
  ascending.imp fun h hc => decide_eq_true (down _ _ h (of_decide_eq_true hc))

theorem take_drop_eq_filter {row : List Arc} (ascending : row.Pairwise (·.neighbor ≤ ·.neighbor))
    (x : Nat) :
    (row.take (partitionPoint row (·.neighbor ≤ x))).drop (partitionPoint row (·.neighbor < x)) =
      row.filter (·.neighbor = x) := by
  have upTo := partitioned_of_ascending ascending fun _ _ => @Nat.le_trans _ _ x
  have below := partitioned_of_ascending ascending fun _ _ => @Nat.lt_of_le_of_lt _ _ x
  have lower : (row.filter (·.neighbor ≤ x)).filter (·.neighbor < x) = row.filter (·.neighbor < x) := by
    rw [List.filter_filter]
    refine List.filter_congr fun arc _ => ?_
    rw [Bool.eq_iff_iff, Bool.and_eq_true]
    simp only [decide_eq_true_eq]
    omega
  have split := filter_append_filter_not (below.filter (·.neighbor ≤ x))
  rw [take_partitionPoint upTo, partitionPoint_eq below]
  calc (row.filter (·.neighbor ≤ x)).drop (row.filter (·.neighbor < x)).length
      = (row.filter (·.neighbor ≤ x)).filter (fun arc => !decide (arc.neighbor < x)) := by
        rw [← lower]
        exact (congrArg _ split.symm).trans List.drop_left
    _ = row.filter (·.neighbor = x) := by
        rw [List.filter_filter]
        refine List.filter_congr fun arc _ => ?_
        rw [Bool.eq_iff_iff, Bool.and_eq_true, Bool.not_eq_true', decide_eq_false_iff_not]
        simp only [decide_eq_true_eq]
        omega

theorem find_eq_between {a : Adjacency} (h : a.WellFormed) (r x : Nat) :
    a.find r x = a.between r x := by
  rw [find, between]
  split
  · next sorted =>
    exact congrArg _ (take_drop_eq_filter (h.row_ascending sorted r) x)
  · rfl

theorem between_eq (a : Adjacency) (r x : Nat) :
    a.between r x = (a.entries.filter fun e => e.row = r ∧ e.col = x).map Entry.edge := by
  rw [between, ← arcsOf_entries, arcsOf, List.filter_map, List.map_map, List.filter_filter]
  refine congrArg _ (List.filter_congr fun e _ => ?_)
  rw [Bool.decide_and, Bool.and_comm]
  rfl

/-- Both directions list the edges between two vertices in the same order. -/
theorem between_transpose {a : Adjacency} (h : a.WellFormed) (r x : Nat) :
    a.transpose.between x r = a.between r x := by
  rw [between, row_transpose h, between_eq, arcsOf_map_swap, List.filter_map, List.map_map,
    List.filter_filter]
  refine congrArg _ (List.filter_congr fun e _ => ?_)
  rw [Bool.decide_and]
  rfl

theorem arcsOf_filter_col (a : Adjacency) (r x : Nat) :
    arcsOf r (a.entries.filter (·.col = x)) = (a.between r x).map (Arc.mk x) := by
  rw [between_eq, List.map_map, arcsOf, List.filter_filter]
  have both : (fun e : Entry => decide (e.row = r) && decide (e.col = x)) =
      fun e => decide (e.row = r ∧ e.col = x) := by
    funext e
    exact (Bool.decide_and ..).symm
  rw [both]
  refine List.map_congr_left fun e he => ?_
  have col : e.col = x := (of_decide_eq_true (List.mem_filter.1 he).2).2
  rw [Entry.arc, col]
  rfl

/-- The transpose is known from what it lists between each two vertices. -/
theorem transpose_eq_iff {a b : Adjacency} (ha : a.WellFormed) (hb : b.WellFormed)
    (count : a.vertexCount = b.vertexCount) :
    a.transpose = b.transpose ↔ ∀ r x, a.between r x = b.between r x := by
  constructor
  · intro same r x
    rw [← between_transpose ha, ← between_transpose hb, same]
  · intro same
    have columns : ∀ x, a.entries.filter (·.col = x) = b.entries.filter (·.col = x) := by
      intro x
      refine eq_of_arcsOf_eq ((pairwise_entries a).filter _) ((pairwise_entries b).filter _) ?_
      intro r
      rw [arcsOf_filter_col, arcsOf_filter_col, same]
    refine (wellFormed_transpose a).eq_of_rows_eq (wellFormed_transpose b) ?_
    rw [transpose, transpose, rows_ofEntries, rows_ofEntries, count]
    refine List.map_congr_left fun v _ => ?_
    rw [arcsOf_map_swap, arcsOf_map_swap, columns]

/-- Parallel edges stand in the order of their ids. -/
def ParallelAscending (a : Adjacency) : Prop :=
  ∀ row ∈ a.rows, row.Pairwise fun b c => b.neighbor = c.neighbor → b.edge ≤ c.edge

instance (a : Adjacency) : Decidable a.ParallelAscending :=
  inferInstanceAs (Decidable (∀ row ∈ a.rows, _))

theorem parallelAscending_iff {a : Adjacency} :
    a.ParallelAscending ↔ ∀ r x, (a.between r x).Pairwise (· ≤ ·) := by
  constructor
  · intro ascending r x
    by_cases hr : r < a.vertexCount
    · have row := (ascending _ (List.mem_of_getElem? (row_eq_of_lt hr))).filter (·.neighbor = x)
      rw [between, List.pairwise_map]
      refine row.imp_of_mem fun {b c} hb hc hle => hle ?_
      exact (of_decide_eq_true (List.mem_filter.1 hb).2).trans
        (of_decide_eq_true (List.mem_filter.1 hc).2).symm
    · rw [between, row_eq_nil_of_le (Nat.le_of_not_lt hr)]
      exact .nil
  · intro ascending row hrow
    obtain ⟨r, hr⟩ := List.getElem?_of_mem hrow
    have own : a.row r = row := by rw [Adjacency.row, hr, Option.getD_some]
    rw [List.pairwise_iff_forall_sublist]
    intro b c pair parallel
    have both := pair.filter (·.neighbor = c.neighbor)
    have whole : [b, c].filter (·.neighbor = c.neighbor) = [b, c] := by simp [parallel]
    rw [whole] at both
    have ordered := ascending r c.neighbor
    rw [between, own, List.pairwise_map, List.pairwise_iff_forall_sublist] at ordered
    exact ordered both

theorem parallelAscending_ofEntries {entries : List Entry}
    (ascending : entries.Pairwise (·.edge ≤ ·.edge)) (n : Nat) :
    (ofEntries n entries).ParallelAscending := by
  intro row hrow
  rw [rows_ofEntries] at hrow
  obtain ⟨v, -, rfl⟩ := List.mem_map.1 hrow
  rw [arcsOf, List.pairwise_map]
  refine List.Pairwise.imp ?_ (ascending.filter _)
  intro b c h _
  exact h

theorem between_sort_perm (a : Adjacency) (r x : Nat) :
    (a.sort.between r x).Perm (a.between r x) :=
  (((sameRows_sort a).2 r).symm.filter _).map _

theorem parallelAscending_sort {a : Adjacency} (h : a.sorted = false) :
    a.sort.ParallelAscending := by
  rw [sort, if_neg (by simp [h])]
  intro row hrow
  obtain ⟨original, -, rfl⟩ := List.mem_map.1 hrow
  refine (List.pairwise_mergeSort arcLE_trans arcLE_total original).imp fun {b c} hle parallel => ?_
  rw [arcLE_iff] at hle
  omega

/-- Sorting first makes no difference to the transpose exactly when the rows ascend already or
parallel edges stand in the order of their ids. -/
theorem transpose_sort_iff {a : Adjacency} (h : a.WellFormed) :
    a.sort.transpose = a.transpose ↔ a.sorted = true ∨ a.ParallelAscending := by
  rw [transpose_eq_iff h.sort h (vertexCount_sort a)]
  by_cases sorted : a.sorted = true
  · rw [sort_of_sorted sorted]
    exact iff_of_true (fun _ _ => rfl) (.inl sorted)
  · have unsorted : a.sorted = false := by simpa using sorted
    rw [or_iff_right sorted]
    have ascending := parallelAscending_iff.1 (parallelAscending_sort unsorted)
    rw [parallelAscending_iff]
    constructor
    · intro same r x
      rw [← same]
      exact ascending r x
    · intro parallel r x
      exact (between_sort_perm a r x).eq_of_pairwise (fun _ _ _ _ => Nat.le_antisymm)
        (ascending r x) (parallel r x)

end GraphRelay.Adjacency
