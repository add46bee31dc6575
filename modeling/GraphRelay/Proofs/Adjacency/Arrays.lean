import GraphRelay.IdMap
import GraphRelay.Proofs.Adjacency.WellFormed

/-!
# Compressed arrays

`ofArrays` accepts exactly the arrays that describe rows. What it makes of them is well-formed and has
these arrays as its views, and a well-formed adjacency comes back from its own arrays.
-/
namespace GraphRelay.Adjacency

/-- What `ofArrays` asks of compressed arrays. -/
structure Compressed (offsets neighbors edgeIds : List Nat) : Prop where
  head : offsets.head? = some 0
  ascending : offsets.Pairwise (· ≤ ·)
  last : offsets.getLast? = some neighbors.length
  length_ids : edgeIds.length = neighbors.length
  neighbor_lt : ∀ v ∈ neighbors, v < offsets.length - 1

theorem pairwise_iff_zip {first : Nat} {rest : List Nat} :
    (first :: rest).Pairwise (· ≤ ·) ↔ ∀ p ∈ (first :: rest).zip rest, p.1 ≤ p.2 := by
  rw [← isAscending_iff]
  induction rest generalizing first with
  | nil => simp [isAscending]
  | cons second rest ih => simp [isAscending, ih]

theorem ofArrays_eq_ok_iff {offsets neighbors edgeIds : List Nat} {a : Adjacency} :
    ofArrays offsets neighbors edgeIds = .ok a ↔ Compressed offsets neighbors edgeIds ∧
      a = ofRows (cut (rowLengths offsets) (List.zipWith Arc.mk neighbors edgeIds)) := by
  cases offsets with
  | nil =>
    refine iff_of_false (by simp [ofArrays]) fun h => ?_
    simpa using h.1.head
  | cons first rest =>
    have last : (first :: rest).getLast? = some (rest.getLast?.getD first) := List.getLast?_cons ..
    rw [ofArrays]
    split
    · next nonzero => exact iff_of_false (by simp) fun h => nonzero (by simpa using h.1.head)
    next zero =>
    split
    · next lengths => exact iff_of_false (by simp) fun h => lengths h.1.length_ids.symm
    next lengths =>
    split
    · next i found =>
      refine iff_of_false (by simp) fun h => ?_
      obtain ⟨hi, decreasing, -⟩ := List.findIdx?_eq_some_iff_getElem.1 found
      have := pairwise_iff_zip.1 h.1.ascending _ (List.getElem_mem hi)
      simp only [decide_eq_true_eq] at decreasing
      omega
    next ascending =>
    dsimp only
    split
    · next wrong =>
      refine iff_of_false (by simp) fun h => wrong ?_
      simpa [last] using h.1.last
    next right =>
    split
    · next v found =>
      refine iff_of_false (by simp) fun h => ?_
      have lt := h.1.neighbor_lt v (List.mem_of_find?_eq_some found)
      have le : rest.length ≤ v := by simpa using List.find?_some found
      rw [List.length_cons] at lt
      omega
    next inside =>
    rw [Except.ok.injEq, eq_comm]
    refine (and_iff_right ?_).symm
    refine ⟨by simpa using zero, ?_, ?_, (Decidable.not_not.1 lengths).symm, fun v hv => ?_⟩
    · rw [pairwise_iff_zip]
      intro p hp
      simpa using List.findIdx?_eq_none_iff.1 ascending p hp
    · rw [last, Decidable.not_not.1 right]
    · have := List.find?_eq_none.1 inside v hv
      simpa using this

theorem kind_of_ofArrays_eq_error {offsets neighbors edgeIds : List Nat} {f : Fault}
    (refused : ofArrays offsets neighbors edgeIds = .error f) : f.kind = .construction := by
  cases offsets with
  | nil =>
    cases refused
    rfl
  | cons first rest =>
    simp only [ofArrays] at refused
    repeat' split at refused
    all_goals
      cases refused
      try rfl

theorem ofArrays_of_not_compressed {offsets neighbors edgeIds : List Nat}
    (unfit : ¬Compressed offsets neighbors edgeIds) :
    ∃ f, ofArrays offsets neighbors edgeIds = .error f ∧ f.kind = .construction := by
  cases made : ofArrays offsets neighbors edgeIds with
  | ok a => exact absurd (ofArrays_eq_ok_iff.1 made).1 unfit
  | error f => exact ⟨f, rfl, kind_of_ofArrays_eq_error made⟩

section Compressed

variable {offsets neighbors edgeIds : List Nat}

theorem Compressed.offset_le (h : Compressed offsets neighbors edgeIds) :
    ∀ i ∈ offsets, i ≤ neighbors.length := by
  obtain ⟨before, split⟩ := List.getLast?_eq_some_iff.1 h.last
  have ascending := h.ascending
  rw [split, List.pairwise_append] at ascending
  intro i member
  rw [split, List.mem_append, List.mem_singleton] at member
  rcases member with earlier | rfl
  · exact ascending.2.2 i earlier _ (List.mem_singleton.2 rfl)
  · exact Nat.le_refl _

theorem Compressed.sum_rowLengths (h : Compressed offsets neighbors edgeIds) :
    (rowLengths offsets).sum = (List.zipWith Arc.mk neighbors edgeIds).length := by
  match offsets, h with
  | first :: rest, h =>
    have last : (first :: rest)[rest.length]? = some neighbors.length := by
      rw [← h.last, List.getLast?_eq_getElem?]
      rfl
    have zero : (first :: rest)[0]? = some 0 := by
      rw [← h.head, List.head?_eq_getElem?]
    have total := sum_take_rowLengths h.ascending zero last
    rw [List.take_of_length_le (by simp)] at total
    rw [List.length_zipWith, h.length_ids, Nat.min_self]
    omega

/-- Adopted arrays stay as they are. -/
theorem views_of_ofArrays {a : Adjacency} (ok : ofArrays offsets neighbors edgeIds = .ok a) :
    a.offsets = offsets ∧ a.neighbors = neighbors ∧ a.edgeIds = edgeIds := by
  obtain ⟨h, ha⟩ := ofArrays_eq_ok_iff.1 ok
  have rows : a.rows = cut (rowLengths offsets) (List.zipWith Arc.mk neighbors edgeIds) :=
    congrArg Adjacency.rows ha
  have arcs : a.arcs = List.zipWith Arc.mk neighbors edgeIds := by
    rw [Adjacency.arcs, rows, flatten_cut h.sum_rowLengths]
  refine ⟨?_, ?_, ?_⟩
  · match offsets, h with
    | first :: rest, h =>
      obtain rfl : first = 0 := by simpa using h.head
      refine offsetsFrom_of_lengths h.ascending ?_
      rw [rows, map_length_cut (Nat.le_of_eq h.sum_rowLengths)]
  · have first : a.neighbors = (neighbors.zip edgeIds).map Prod.fst := by
      rw [Adjacency.neighbors, arcs, List.zip, List.map_zipWith, List.map_zipWith]
    rw [first, List.map_fst_zip (Nat.le_of_eq h.length_ids.symm)]
  · have second : a.edgeIds = (neighbors.zip edgeIds).map Prod.snd := by
      rw [Adjacency.edgeIds, arcs, List.zip, List.map_zipWith, List.map_zipWith]
    rw [second, List.map_snd_zip (Nat.le_of_eq h.length_ids)]

theorem wellFormed_ofArrays {a : Adjacency} (ok : ofArrays offsets neighbors edgeIds = .ok a) :
    a.WellFormed := by
  obtain ⟨hoffsets, hneighbors, -⟩ := views_of_ofArrays ok
  obtain ⟨h, ha⟩ := ofArrays_eq_ok_iff.1 ok
  refine ⟨fun row hrow arc harc => ?_, ?_⟩
  · have mem : arc.neighbor ∈ neighbors := by
      rw [← hneighbors]
      exact List.mem_map_of_mem (List.mem_flatten.2 ⟨row, hrow, harc⟩)
    have lt := h.neighbor_lt _ mem
    rwa [← hoffsets, Adjacency.offsets, length_offsetsFrom, Nat.add_sub_cancel] at lt
  · rw [ha]
    rfl

theorem map_row_entriesFrom (start offset : Nat) (rows : List (List Arc)) :
    (entriesFrom start rows).map Entry.row =
      repeatRuns (List.range' start rows.length) (offsetsFrom offset rows) := by
  induction rows generalizing start offset with
  | nil => rfl
  | cons row rows ih =>
    have here : (row.map fun arc => (⟨start, arc.neighbor, arc.edge⟩ : Entry)).map Entry.row =
        List.replicate row.length start := by
      rw [List.map_map]
      exact List.map_const' ..
    have next := ih (start + 1) (offset + row.length)
    obtain ⟨later, hlater⟩ : ∃ later, offsetsFrom (offset + row.length) rows =
        (offset + row.length) :: later := by
      cases rows <;> exact ⟨_, rfl⟩
    rw [hlater] at next
    rw [entriesFrom, List.map_append, here, next, offsetsFrom, hlater, List.length_cons,
      List.range'_succ, repeatRuns, Nat.add_sub_cancel_left]

/-- The entries are read off the arrays: each vertex holds as many as its offsets are apart. -/
theorem entries_eq_zipEntries (a : Adjacency) : a.entries =
    zipEntries (repeatRuns (List.range a.vertexCount) a.offsets) a.neighbors a.edgeIds := by
  rw [vertexCount, offsets, List.range_eq_range', ← map_row_entriesFrom, ← zipEntries_map a.entries,
    neighbors, edgeIds, ← map_arc_entries, List.map_map, List.map_map]
  rfl

theorem entries_of_ofArrays {a : Adjacency} (ok : ofArrays offsets neighbors edgeIds = .ok a) :
    a.entries = zipEntries (repeatRuns (List.range (offsets.length - 1)) offsets) neighbors edgeIds := by
  obtain ⟨hoffsets, hneighbors, hids⟩ := views_of_ofArrays ok
  have count : offsets.length - 1 = a.vertexCount := by
    rw [← hoffsets, Adjacency.offsets, length_offsetsFrom]
    rfl
  rw [entries_eq_zipEntries, hoffsets, hneighbors, hids, count]

end Compressed

theorem WellFormed.compressed {a : Adjacency} (h : a.WellFormed) :
    Compressed a.offsets a.neighbors a.edgeIds := by
  refine ⟨head?_offsetsFrom 0 a.rows, pairwise_offsetsFrom 0 a.rows, ?_, ?_, fun v hv => ?_⟩
  · rw [offsets, getLast?_offsetsFrom, Nat.zero_add, neighbors, List.length_map, arcs]
  · rw [edgeIds, neighbors, List.length_map, List.length_map]
  · obtain ⟨arc, harc, rfl⟩ := List.mem_map.1 hv
    obtain ⟨row, hrow, harc⟩ := List.mem_flatten.1 harc
    rw [offsets, length_offsetsFrom, Nat.add_sub_cancel]
    exact h.neighbor_lt row hrow arc harc

theorem zipWith_neighbors_edgeIds (a : Adjacency) :
    List.zipWith Arc.mk a.neighbors a.edgeIds = a.arcs := by
  rw [neighbors, edgeIds, List.zipWith_map, List.zipWith_self]
  exact List.map_id _

/-- Its own arrays give a well-formed adjacency back. -/
theorem WellFormed.ofArrays_views {a : Adjacency} (h : a.WellFormed) :
    ofArrays a.offsets a.neighbors a.edgeIds = .ok a := by
  rw [ofArrays_eq_ok_iff]
  refine ⟨h.compressed, ?_⟩
  rw [zipWith_neighbors_edgeIds, offsets, rowLengths_offsetsFrom, arcs, cut_lengths,
    h.ofRows_rows]

end GraphRelay.Adjacency
