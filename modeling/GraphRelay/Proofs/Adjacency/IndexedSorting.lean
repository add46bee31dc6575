import GraphRelay.Proofs.Adjacency.Indexing
import GraphRelay.Proofs.Adjacency.Reachable

/-!
# Rearranging compressed arrays in bounds

The counting sort behind a transpose and the sorting of rows, place by place and with every bound
looked at. What is written lands where the adjacency it belongs to has it.
-/
namespace GraphRelay.Adjacency

/-- Changes the number at a place, if there is such a place. -/
def modify? (xs : Array Nat) (i : Nat) (f : Nat → Nat) : Option (Array Nat) :=
  if i < xs.size then some (xs.modify i f) else none

def countRows? (n : Nat) (entries : List Entry) : Option (Array Nat) :=
  entries.foldlM (fun counts e => modify? counts (e.row + 1) (· + 1)) (Array.replicate (n + 1) 0)

def accumulate? : Nat → Array Nat → Option (Array Nat)
  | 0, counts => some counts
  | n + 1, counts => do
    let sums ← accumulate? n counts
    let before ← sums[n]?
    modify? sums (n + 1) (· + before)

def place? (cursorsAndSlots : Array Nat × Array Arc) (e : Entry) :
    Option (Array Nat × Array Arc) := do
  let (cursors, slots) := cursorsAndSlots
  let slot ← cursors[e.row]?
  let cursors ← modify? cursors e.row (· + 1)
  if slot < slots.size then some (cursors, slots.setIfInBounds slot e.arc) else none

/-- Writes `ys` one after the other from a place on. -/
def write? {α : Type} (xs : List α) (start : Nat) : List α → Option (List α)
  | [] => some xs
  | y :: ys => if start < xs.length then write? (xs.set start y) (start + 1) ys else none

namespace Arrays

/-- Entries from parallel lists, their ids looked up by position. -/
def gather? (rows cols ids : List Nat) : Option (List Entry) :=
  (rows.zip cols).zipIdx.mapM fun ((r, c), position) => do
    let id ← ids[position]?
    pure ⟨r, c, id⟩

/-- The counting sort. -/
def bucket? (n : Nat) (rows cols ids : List Nat) : Option Arrays := do
  let entries ← gather? rows cols ids
  let counts ← countRows? n entries
  let starts ← accumulate? n counts
  let cursors ← if n ≤ starts.size then some (starts.extract 0 n) else none
  let (_, slots) ← entries.foldlM place? (cursors, Array.replicate entries.length ⟨0, 0⟩)
  let neighbors := slots.toList.map Arc.neighbor
  let sorted ← rowsSorted? starts.toList neighbors
  pure ⟨starts.toList, neighbors, slots.toList.map Arc.edge, sorted⟩

def transpose? (s : Arrays) : Option Arrays := do
  let (rows, cols, ids) ← s.coordinates?
  bucket? s.vertexCount cols rows ids

def sortRow? (s : Arrays) (v : Nat) : Option Arrays := do
  let (start, _) ← s.span? v
  let (cols, ids) ← s.row? v
  let row := (List.zipWith Arc.mk cols ids).mergeSort arcLE
  let neighbors ← write? s.neighbors start (row.map Arc.neighbor)
  let edgeIds ← write? s.edgeIds start (row.map Arc.edge)
  pure { s with neighbors := neighbors, edgeIds := edgeIds }

def sort? (s : Arrays) : Option Arrays :=
  if s.sorted then some s
  else do
    let s ← (List.range s.vertexCount).foldlM sortRow? s
    pure { s with sorted := true }

end Arrays

section Bucket

variable {n : Nat} {entries : List Entry}

theorem countRows?_eq (inside : ∀ e ∈ entries, e.row < n) :
    countRows? n entries = some (countRows n entries) := by
  have counted (counts : Array Nat) (size : counts.size = n + 1) :
      entries.foldlM (fun counts e => modify? counts (e.row + 1) (· + 1)) counts =
        some (entries.foldl (fun counts e => counts.modify (e.row + 1) (· + 1)) counts) := by
    induction entries generalizing counts with
    | nil => rfl
    | cons e entries ih =>
      rw [List.forall_mem_cons] at inside
      have fits : e.row + 1 < counts.size := by omega
      rw [List.foldlM_cons, modify?, if_pos fits]
      exact ih inside.2 _ (by simpa using size)
  exact counted _ (by simp)

theorem accumulate?_eq {k : Nat} {counts : Array Nat} (fits : k < counts.size) :
    accumulate? k counts = some (accumulate k counts) := by
  induction k with
  | zero => rfl
  | succ k ih =>
    have size := size_accumulate k counts
    have here : k < (accumulate k counts).size := by omega
    have next : k + 1 < (accumulate k counts).size := by omega
    have summed : accumulate (k + 1) counts =
        (accumulate k counts).modify (k + 1) (· + (accumulate k counts)[k]?.getD 0) :=
      Nat.fold_succ ..
    rw [summed, accumulate?, ih (by omega)]
    simp [here, modify?, next]

/-- The cursor of the row of an entry still to come points at a slot. -/
theorem Placed.place?_eq {done rest : List Entry} {e : Entry} {cursors : Array Nat}
    {slots : Array Arc} (h : Placed n entries done cursors slots)
    (split : done ++ e :: rest = entries) (he : e.row < n) :
    place? (cursors, slots) e = some (place (cursors, slots) e) := by
  have row : e.row < cursors.size := h.size_cursors.symm ▸ he
  have slot : rowStart entries e.row + (arcsOf e.row done).length < slots.size := by
    have inside := length_arcsOf_lt split
    have next := rowStart_succ entries e.row
    have last := rowStart_le_length entries (e.row + 1)
    have size := h.size_slots
    omega
  simp only [place?, place, h.cursor e.row he]
  simp [modify?, row, slot]

theorem Placed.foldlM_place? {done rest : List Entry} {cursors : Array Nat} {slots : Array Arc}
    (h : Placed n entries done cursors slots) (split : done ++ rest = entries)
    (inside : ∀ e ∈ rest, e.row < n) :
    rest.foldlM place? (cursors, slots) = some (rest.foldl place (cursors, slots)) := by
  induction rest generalizing done cursors slots with
  | nil => rfl
  | cons e rest ih =>
    rw [List.forall_mem_cons] at inside
    rw [List.foldlM_cons, h.place?_eq split inside.1]
    exact ih (h.next split) (by rw [List.append_assoc]; exact split) inside.2

theorem sum_rowLengths_rowStarts (inside : ∀ e ∈ entries, e.row < n) :
    (rowLengths (rowStarts n entries)).sum = entries.length := by
  have first := getElem?_rowStarts entries (show 0 < n + 1 by omega)
  have last := getElem?_rowStarts entries (show n < n + 1 by omega)
  have total := sum_take_rowLengths (pairwise_rowStarts n entries) first last
  have all : rowStart entries n = entries.length := by
    rw [rowStart, List.countP_eq_length]
    simpa using inside
  have whole : (rowLengths (rowStarts n entries)).length ≤ n :=
    Nat.le_of_eq (length_rowLengths_rowStarts n entries)
  rwa [rowStart_zero, Nat.zero_add, List.take_of_length_le whole, all] at total

/-- The slots after all entries have been placed. -/
def slotsOf (n : Nat) (entries : List Entry) : Array Arc :=
  (entries.foldl place ((accumulate n (countRows n entries)).extract 0 n,
    Array.replicate entries.length ⟨0, 0⟩)).2

theorem rows_ofEntries_eq_cut (n : Nat) (entries : List Entry) :
    (ofEntries n entries).rows = cut (rowLengths (rowStarts n entries)) (slotsOf n entries).toList := by
  rw [← toList_accumulate]
  rfl

theorem sum_rowLengths_slotsOf (inside : ∀ e ∈ entries, e.row < n) :
    (rowLengths (rowStarts n entries)).sum = (slotsOf n entries).toList.length := by
  have placed := (placed_start n entries).all (List.nil_append entries)
  rw [sum_rowLengths_rowStarts inside, Array.length_toList]
  exact placed.size_slots.symm

theorem arcs_ofEntries (inside : ∀ e ∈ entries, e.row < n) :
    (ofEntries n entries).arcs = (slotsOf n entries).toList := by
  rw [arcs, rows_ofEntries_eq_cut, flatten_cut (sum_rowLengths_slotsOf inside)]

theorem offsets_ofEntries (inside : ∀ e ∈ entries, e.row < n) :
    (ofEntries n entries).offsets = rowStarts n entries := by
  have starts : rowStarts n entries = 0 :: (rowStarts n entries).tail := by
    rw [rowStarts, List.range_succ_eq_map, List.map_cons, rowStart_zero]
    rfl
  have ascending := pairwise_rowStarts n entries
  have lengths := map_length_cut (Nat.le_of_eq (sum_rowLengths_slotsOf inside))
  rw [← rows_ofEntries_eq_cut] at lengths
  rw [starts] at ascending lengths ⊢
  exact offsetsFrom_of_lengths ascending lengths

theorem gather?_map (entries : List Entry) :
    Arrays.gather? (entries.map Entry.row) (entries.map Entry.col) (entries.map Entry.edge) =
      some entries := by
  have each : ∀ p ∈ (entries.map fun e => (e.row, e.col)).zipIdx,
      (match p with
        | ((r, c), position) => do
          let id ← (entries.map Entry.edge)[position]?
          pure ⟨r, c, id⟩ : Option Entry) = some ((entries[p.2]?).getD ⟨0, 0, 0⟩) := by
    rintro ⟨⟨r, c⟩, position⟩ hp
    have here := List.mem_zipIdx_iff_getElem?.1 hp
    rw [List.getElem?_map] at here
    obtain ⟨e, he, same⟩ := Option.map_eq_some_iff.1 here
    obtain ⟨rfl, rfl⟩ := Prod.mk.inj same
    simp [he]
  rw [Arrays.gather?, List.zip_map', mapM_eq_some each]
  refine congrArg some (List.ext_getElem? fun i => ?_)
  cases here : entries[i]? <;> simp [List.getElem?_zipIdx, here]

/-- The counting sort stays in bounds and leaves the arrays of the rows that it makes. -/
theorem bucket?_map (inside : ∀ e ∈ entries, e.row < n) :
    Arrays.bucket? n (entries.map Entry.row) (entries.map Entry.col) (entries.map Entry.edge) =
      some (ofEntries n entries).arrays := by
  have size : (accumulate n (countRows n entries)).size = n + 1 := by
    rw [size_accumulate, size_countRows]
  have summed : accumulate? n (countRows n entries) = some (accumulate n (countRows n entries)) :=
    accumulate?_eq (by rw [size_countRows]; omega)
  have placed := (placed_start n entries).foldlM_place? (List.nil_append entries) inside
  have neighbors : (slotsOf n entries).toList.map Arc.neighbor = (ofEntries n entries).neighbors := by
    rw [← arcs_ofEntries inside]
    rfl
  have edgeIds : (slotsOf n entries).toList.map Arc.edge = (ofEntries n entries).edgeIds := by
    rw [← arcs_ofEntries inside]
    rfl
  have sorted := rowsSorted?_arrays (ofEntries n entries)
  simp only [Arrays.bucket?, gather?_map, countRows?_eq inside, summed, Option.bind_eq_bind,
    Option.bind_some, size, Nat.le_succ, if_true, placed]
  rw [← slotsOf, neighbors, edgeIds, toList_accumulate, ← offsets_ofEntries inside, sorted]
  rfl

end Bucket

variable {a : Adjacency} {v : Nat}

theorem transpose?_arrays (h : a.WellFormed) :
    a.arrays.transpose? = some a.transpose.arrays := by
  have swapped := bucket?_map (swap_row_lt h)
  rw [List.map_map, List.map_map, List.map_map] at swapped
  rw [Arrays.transpose?, coordinates?_arrays, vertexCount_arrays]
  exact swapped

/-- What is written in the place of as many elements takes their place. -/
theorem write?_append {α : Type} {xs ys zs new : List α} (same : new.length = ys.length) :
    write? (xs ++ (ys ++ zs)) xs.length new = some (xs ++ (new ++ zs)) := by
  induction new generalizing xs ys with
  | nil =>
    obtain rfl := List.eq_nil_of_length_eq_zero same.symm
    rfl
  | cons y new ih =>
    match ys, same with
    | old :: ys, same =>
      have fits : xs.length < (xs ++ (old :: ys ++ zs)).length := by simp
      have written : (xs ++ (old :: ys ++ zs)).set xs.length y = xs ++ [y] ++ (ys ++ zs) := by
        simp
      have next := @ih (xs ++ [y]) ys (by simpa using same)
      rw [List.length_append, List.length_singleton, ← written] at next
      rw [write?, if_pos fits, next]
      simp

/-- The adjacency with one of its rows sorted. -/
def sortRow (a : Adjacency) (v : Nat) : Adjacency :=
  { a with rows := a.rows.modify v (·.mergeSort arcLE) }

theorem rows_sortRow (hv : v < a.vertexCount) : (a.sortRow v).rows =
    a.rows.take v ++ (a.row v).mergeSort arcLE :: a.rows.drop (v + 1) := by
  have here : a.rows[v] = a.row v :=
    Option.some.inj ((List.getElem?_eq_getElem hv).symm.trans (row_eq_of_lt hv))
  rw [sortRow, List.modify_eq_take_cons_drop hv, here]

@[simp] theorem vertexCount_sortRow (a : Adjacency) (v : Nat) :
    (a.sortRow v).vertexCount = a.vertexCount := List.length_modify ..

theorem offsetsFrom_congr {rows others : List (List Arc)}
    (same : rows.map List.length = others.map List.length) (start : Nat) :
    offsetsFrom start rows = offsetsFrom start others := by
  induction rows generalizing others start with
  | nil => rw [List.map_eq_nil_iff.1 same.symm]
  | cons row rows ih =>
    match others, same with
    | other :: others, same =>
      obtain ⟨first, rest⟩ := List.cons.inj same
      rw [offsetsFrom, offsetsFrom, first, ih rest]

theorem offsets_sortRow (a : Adjacency) (v : Nat) : (a.sortRow v).offsets = a.offsets := by
  refine offsetsFrom_congr (List.ext_getElem? fun i => ?_) 0
  rw [sortRow, List.getElem?_map, List.getElem?_map, List.getElem?_modify]
  cases a.rows[i]? with
  | none => rfl
  | some row =>
    by_cases here : v = i <;> simp [here, List.length_mergeSort]

theorem arcs_sortRow (hv : v < a.vertexCount) : (a.sortRow v).arcs =
    (a.rows.take v).flatten ++ ((a.row v).mergeSort arcLE ++ (a.rows.drop (v + 1)).flatten) := by
  rw [arcs, rows_sortRow hv]
  simp

theorem write?_arcs (f : Arc → Nat) (hv : v < a.vertexCount) :
    write? (a.arcs.map f) (a.rowOffset v) (((a.row v).mergeSort arcLE).map f) =
      some ((a.sortRow v).arcs.map f) := by
  have same : (((a.row v).mergeSort arcLE).map f).length = ((a.row v).map f).length := by
    simp [List.length_mergeSort]
  have written := @write?_append _ ((a.rows.take v).flatten.map f) _
    ((a.rows.drop (v + 1)).flatten.map f) _ same
  rw [List.length_map, ← rowOffset] at written
  rw [arcs_split hv, arcs_sortRow hv]
  simpa only [List.map_append] using written

theorem sortRow?_arrays (hv : v < a.vertexCount) :
    a.arrays.sortRow? v = some (a.sortRow v).arrays := by
  have row : List.zipWith Arc.mk ((a.row v).map Arc.neighbor) ((a.row v).map Arc.edge) =
      a.row v := by
    rw [List.zipWith_map, List.zipWith_self]
    exact List.map_id _
  have neighbors : write? a.neighbors (a.rowOffset v) (((a.row v).mergeSort arcLE).map Arc.neighbor) =
      some (a.sortRow v).neighbors := write?_arcs Arc.neighbor hv
  have edgeIds : write? a.edgeIds (a.rowOffset v) (((a.row v).mergeSort arcLE).map Arc.edge) =
      some (a.sortRow v).edgeIds := write?_arcs Arc.edge hv
  rw [Arrays.sortRow?, span?_arrays hv, row?_arrays hv]
  simp only [Option.bind_eq_bind, Option.bind_some, row, neighbors_arrays, neighbors, edgeIds_arrays,
    edgeIds]
  rw [offsets_arrays, ← offsets_sortRow a v]
  rfl

theorem foldlM_sortRow? {vs : List Nat} (inside : ∀ v ∈ vs, v < a.vertexCount) :
    vs.foldlM Arrays.sortRow? a.arrays = some (vs.foldl sortRow a).arrays := by
  induction vs generalizing a with
  | nil => rfl
  | cons v vs ih =>
    rw [List.forall_mem_cons] at inside
    rw [List.foldlM_cons, sortRow?_arrays inside.1]
    exact ih (by simpa using inside.2)

theorem getElem?_foldl_sortRow (a : Adjacency) (k i : Nat) :
    ((List.range k).foldl sortRow a).rows[i]? =
      (a.rows[i]?).map fun row => if i < k then row.mergeSort arcLE else row := by
  induction k with
  | zero => simp
  | succ k ih =>
    rw [List.range_succ, List.foldl_append, List.foldl_cons, List.foldl_nil, sortRow,
      List.getElem?_modify, ih, Option.map_eq_map, Option.map_map]
    congr 1
    funext row
    by_cases here : k = i
    · simp [here]
    · have before : i < k ↔ i < k + 1 := by omega
      simp [here, before]

theorem rows_foldl_sortRow (a : Adjacency) :
    ((List.range a.vertexCount).foldl sortRow a).rows = a.rows.map (·.mergeSort arcLE) := by
  refine List.ext_getElem? fun i => ?_
  rw [getElem?_foldl_sortRow, List.getElem?_map]
  by_cases hi : i < a.vertexCount
  · simp [hi]
  · rw [List.getElem?_eq_none (Nat.le_of_not_lt hi)]
    rfl

theorem sort?_arrays (a : Adjacency) : a.arrays.sort? = some a.sort.arrays := by
  rw [Arrays.sort?, sort, sorted_arrays, vertexCount_arrays]
  split
  · rfl
  · have inside : ∀ v ∈ List.range a.vertexCount, v < a.vertexCount := by simp
    rw [foldlM_sortRow? inside, ← rows_foldl_sortRow]
    rfl

/-- No reading and no rearranging of the arrays of `a` leaves their bounds, and what comes of it is
what the rows say. -/
structure InBounds (a : Adjacency) : Prop where
  row : ∀ v < a.vertexCount,
    a.arrays.row? v = some ((a.row v).map Arc.neighbor, (a.row v).map Arc.edge)
  degree : ∀ v < a.vertexCount, a.arrays.degree? v = some (a.degree v)
  find : ∀ r < a.vertexCount, ∀ x, a.arrays.find? r x = some (a.find r x)
  hasRepeat : a.arrays.hasRepeat? = some a.hasRepeat
  coordinates : a.arrays.coordinates? =
    some (a.entries.map Entry.row, a.entries.map Entry.col, a.entries.map Entry.edge)
  transpose : a.arrays.transpose? = some a.transpose.arrays
  sort : a.arrays.sort? = some a.sort.arrays

theorem WellFormed.inBounds (h : a.WellFormed) : a.InBounds where
  row _ := row?_arrays
  degree _ := degree?_arrays
  find _ := find?_arrays h
  hasRepeat := hasRepeat?_arrays a
  coordinates := coordinates?_arrays a
  transpose := transpose?_arrays h
  sort := sort?_arrays a

theorem WellFormed.sorted_iff (h : a.WellFormed) : a.sorted = true ↔
    ∀ v < a.vertexCount, ((a.row v).map Arc.neighbor).Pairwise (· ≤ ·) := by
  rw [h.sorted_eq, rowsSorted_iff, rows_eq_map_row]
  simp

/-- Exactly the arrays that describe rows are adopted, as they are. Whatever adjacency is made from
arrays, from coordinates or from another one has such arrays, knows whether its rows ascend, is read
and rearranged in bounds, and comes back from its own arrays. -/
theorem arrays_sound :
    (∀ offsets neighbors edgeIds,
      (Compressed offsets neighbors edgeIds → ∃ a, ofArrays offsets neighbors edgeIds = .ok a ∧
        a.arrays = ⟨offsets, neighbors, edgeIds, a.sorted⟩) ∧
      (¬Compressed offsets neighbors edgeIds →
        ∃ f, ofArrays offsets neighbors edgeIds = .error f ∧ f.kind = .construction)) ∧
    ∀ a, Reachable a → Compressed a.offsets a.neighbors a.edgeIds ∧
      (a.sorted = true ↔ ∀ v < a.vertexCount, ((a.row v).map Arc.neighbor).Pairwise (· ≤ ·)) ∧
      a.InBounds ∧ ofArrays a.offsets a.neighbors a.edgeIds = .ok a := by
  refine ⟨fun offsets neighbors edgeIds => ⟨fun compressed => ?_, fun unfit => ?_⟩,
    fun a reachable => ?_⟩
  · have made := ofArrays_eq_ok_iff.2 ⟨compressed, rfl⟩
    obtain ⟨sameOffsets, sameNeighbors, sameIds⟩ := views_of_ofArrays made
    refine ⟨_, made, ?_⟩
    rw [arrays, sameOffsets, sameNeighbors, sameIds]
  · exact ofArrays_of_not_compressed unfit
  · have h := reachable.wellFormed
    exact ⟨h.compressed, h.sorted_iff, h.inBounds, h.ofArrays_views⟩

/-- A row with parallel edges out of order, an empty one and one with a single edge; and arrays with a
neighbor that has no row. -/
theorem arrays_sound_three :
    (∃ a, ofArrays [0, 3, 3, 4] [2, 1, 2, 0] [0, 1, 3, 2] = .ok a ∧
      a.arrays = ⟨[0, 3, 3, 4], [2, 1, 2, 0], [0, 1, 3, 2], a.sorted⟩) ∧
    (∃ f, ofArrays [0, 2] [0, 1] [0, 1] = .error f ∧ f.kind = .construction) ∧
    (Arrays.mk [0, 3, 3, 4] [2, 1, 2, 0] [0, 1, 3, 2] false).find? 0 2 = some [0, 3] ∧
    (Arrays.mk [0, 3, 3, 4] [2, 1, 2, 0] [0, 1, 3, 2] false).degree? 1 = some 0 := by
  have reachable : Reachable ⟨[[⟨2, 0⟩, ⟨1, 1⟩, ⟨2, 3⟩], [], [⟨0, 2⟩]], false⟩ :=
    reachable_iff.2 ⟨by decide, by decide⟩
  obtain ⟨-, -, inBounds, -⟩ := arrays_sound.2 _ reachable
  refine ⟨(arrays_sound.1 _ _ _).1 ⟨rfl, by decide, rfl, rfl, by decide⟩,
    (arrays_sound.1 _ _ _).2 fun h => ?_, inBounds.find 0 (by decide) 2, inBounds.degree 1 (by decide)⟩
  exact absurd (h.neighbor_lt 1 (by decide)) (by decide)

end GraphRelay.Adjacency
