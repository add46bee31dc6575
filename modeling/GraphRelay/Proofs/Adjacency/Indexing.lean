import GraphRelay.Proofs.Adjacency.Arrays
import GraphRelay.Proofs.Adjacency.Parallel

/-!
# Reading compressed arrays in bounds

Rows, degrees, edges and entries as they are read off the compressed arrays, position by position and
with every bound looked at. Of a well-formed adjacency each reading stays in bounds and finds what the
rows hold.
-/
namespace GraphRelay.Adjacency

/-- Offsets, neighbors and edge ids as they stand in memory. -/
structure Arrays where
  offsets : List Nat
  neighbors : List Nat
  edgeIds : List Nat
  sorted : Bool
  deriving DecidableEq, Repr

def arrays (a : Adjacency) : Arrays := ⟨a.offsets, a.neighbors, a.edgeIds, a.sorted⟩

/-- The positions from `lo` up to `hi`, if they are in order and there are that many. -/
def slice? {α : Type} (xs : List α) (lo hi : Nat) : Option (List α) :=
  if lo ≤ hi ∧ hi ≤ xs.length then some ((xs.drop lo).take (hi - lo)) else none

namespace Arrays

def vertexCount (s : Arrays) : Nat := s.offsets.length - 1

/-- Where a row starts and where it ends. -/
def span? (s : Arrays) (v : Nat) : Option (Nat × Nat) := do
  let start ← s.offsets[v]?
  let stop ← s.offsets[v + 1]?
  pure (start, stop)

def row? (s : Arrays) (v : Nat) : Option (List Nat × List Nat) := do
  let (start, stop) ← s.span? v
  let cols ← slice? s.neighbors start stop
  let ids ← slice? s.edgeIds start stop
  pure (cols, ids)

/-- The difference of two offsets, if it does not fall below zero. -/
def degree? (s : Arrays) (v : Nat) : Option Nat := do
  let (start, stop) ← s.span? v
  if start ≤ stop then some (stop - start) else none

def find? (s : Arrays) (r x : Nat) : Option (List Nat) := do
  let (cols, ids) ← s.row? r
  if s.sorted then
    slice? ids (partitionPoint cols (· < x)) (partitionPoint cols (· ≤ x))
  else some (((cols.zip ids).filter (·.1 = x)).map Prod.snd)

def hasRepeat? (s : Arrays) : Option Bool :=
  (List.range s.vertexCount).anyM fun v => do
    let (cols, _) ← s.row? v
    pure (!decide cols.Nodup)

/-- Row, neighbor and edge id of every entry, as three lists. -/
def coordinates? (s : Arrays) : Option (List Nat × List Nat × List Nat) := do
  let rows ← (List.range s.vertexCount).mapM fun v => do
    let degree ← s.degree? v
    pure (List.replicate degree v)
  pure (rows.flatten, s.neighbors, s.edgeIds)

/-- Whether the neighbors ascend between any two offsets that follow each other. -/
def rowsSorted? (offsets neighbors : List Nat) : Option Bool :=
  (List.range (offsets.length - 1)).allM fun v => do
    let start ← offsets[v]?
    let stop ← offsets[v + 1]?
    let cols ← slice? neighbors start stop
    pure (isAscending cols)

end Arrays

section Loops

variable {α β : Type}

theorem mapM_eq_some {f : α → Option β} {value : α → β} {xs : List α}
    (found : ∀ x ∈ xs, f x = some (value x)) : xs.mapM f = some (xs.map value) := by
  induction xs with
  | nil => rfl
  | cons x xs ih =>
    rw [List.forall_mem_cons] at found
    simp [found.1, ih found.2]

theorem anyM_eq_some {f : α → Option Bool} {value : α → Bool} {xs : List α}
    (found : ∀ x ∈ xs, f x = some (value x)) : xs.anyM f = some (xs.any value) := by
  induction xs with
  | nil => rfl
  | cons x xs ih =>
    rw [List.forall_mem_cons] at found
    cases h : value x <;> simp [List.anyM, found.1, ih found.2, h]

theorem allM_eq_some {f : α → Option Bool} {value : α → Bool} {xs : List α}
    (found : ∀ x ∈ xs, f x = some (value x)) : xs.allM f = some (xs.all value) := by
  induction xs with
  | nil => rfl
  | cons x xs ih =>
    rw [List.forall_mem_cons] at found
    cases h : value x <;> simp [List.allM, found.1, ih found.2, h]

end Loops

theorem slice?_append {α : Type} (xs ys zs : List α) :
    slice? (xs ++ (ys ++ zs)) xs.length (xs.length + ys.length) = some ys := by
  rw [slice?, if_pos (by simp), List.drop_left, Nat.add_sub_cancel_left, List.take_left]

theorem slice?_map {α β : Type} (f : α → β) (xs : List α) (lo hi : Nat) :
    slice? (xs.map f) lo hi = (slice? xs lo hi).map (List.map f) := by
  simp only [slice?, List.length_map]
  split <;> simp

theorem getElem?_offsetsFrom {start v : Nat} {rows : List (List Arc)} (hv : v ≤ rows.length) :
    (offsetsFrom start rows)[v]? = some (start + (rows.take v).flatten.length) := by
  induction rows generalizing start v with
  | nil =>
    obtain rfl : v = 0 := by simpa using hv
    rfl
  | cons row rows ih =>
    cases v with
    | zero => rfl
    | succ v =>
      rw [offsetsFrom, List.getElem?_cons_succ, ih (by simpa using hv)]
      simp [Nat.add_assoc]

variable {a : Adjacency} {v : Nat}

/-- Where row `v` starts. -/
def rowOffset (a : Adjacency) (v : Nat) : Nat := (a.rows.take v).flatten.length

theorem getElem?_offsets (hv : v ≤ a.vertexCount) : a.offsets[v]? = some (a.rowOffset v) := by
  rw [offsets, getElem?_offsetsFrom hv, Nat.zero_add, rowOffset]

theorem take_succ_rows (hv : v < a.vertexCount) : a.rows.take (v + 1) = a.rows.take v ++ [a.row v] := by
  rw [List.take_add_one, row_eq_of_lt hv]
  rfl

theorem rowOffset_succ (hv : v < a.vertexCount) :
    a.rowOffset (v + 1) = a.rowOffset v + (a.row v).length := by
  rw [rowOffset, rowOffset, take_succ_rows hv]
  simp

/-- The arcs before a row, its own and those behind it. -/
theorem arcs_split (hv : v < a.vertexCount) : a.arcs =
    (a.rows.take v).flatten ++ (a.row v ++ (a.rows.drop (v + 1)).flatten) := by
  have split := List.take_append_drop (v + 1) a.rows
  rw [arcs, ← congrArg List.flatten split, take_succ_rows hv]
  simp

theorem slice?_arcs (hv : v < a.vertexCount) :
    slice? a.arcs (a.rowOffset v) (a.rowOffset (v + 1)) = some (a.row v) := by
  rw [rowOffset_succ hv, arcs_split hv]
  exact slice?_append ..

theorem rows_eq_map_row (a : Adjacency) : a.rows = (List.range a.vertexCount).map a.row := by
  refine List.ext_getElem? fun v => ?_
  by_cases hv : v < a.vertexCount
  · rw [row_eq_of_lt hv, List.getElem?_map, List.getElem?_range hv]
    rfl
  · rw [List.getElem?_eq_none (Nat.le_of_not_lt hv), List.getElem?_eq_none (by simpa using hv)]

@[simp] theorem offsets_arrays (a : Adjacency) : a.arrays.offsets = a.offsets := rfl

@[simp] theorem neighbors_arrays (a : Adjacency) : a.arrays.neighbors = a.neighbors := rfl

@[simp] theorem edgeIds_arrays (a : Adjacency) : a.arrays.edgeIds = a.edgeIds := rfl

@[simp] theorem sorted_arrays (a : Adjacency) : a.arrays.sorted = a.sorted := rfl

@[simp] theorem vertexCount_arrays (a : Adjacency) : a.arrays.vertexCount = a.vertexCount := by
  simp [arrays, Arrays.vertexCount, offsets, vertexCount]

theorem span?_arrays (hv : v < a.vertexCount) :
    a.arrays.span? v = some (a.rowOffset v, a.rowOffset (v + 1)) := by
  simp [Arrays.span?, getElem?_offsets (Nat.le_of_lt hv), getElem?_offsets hv]

theorem row?_arrays (hv : v < a.vertexCount) :
    a.arrays.row? v = some ((a.row v).map Arc.neighbor, (a.row v).map Arc.edge) := by
  have cols : slice? a.neighbors (a.rowOffset v) (a.rowOffset (v + 1)) =
      some ((a.row v).map Arc.neighbor) := by rw [neighbors, slice?_map, slice?_arcs hv]; rfl
  have ids : slice? a.edgeIds (a.rowOffset v) (a.rowOffset (v + 1)) =
      some ((a.row v).map Arc.edge) := by rw [edgeIds, slice?_map, slice?_arcs hv]; rfl
  simp [Arrays.row?, span?_arrays hv, cols, ids]

theorem degree?_arrays (hv : v < a.vertexCount) : a.arrays.degree? v = some (a.degree v) := by
  simp [Arrays.degree?, span?_arrays hv, rowOffset_succ hv, degree]

theorem partitionPoint_map {α β : Type} (f : α → β) (xs : List α) (p : β → Bool) :
    partitionPoint (xs.map f) p = partitionPoint xs (p ∘ f) := by
  simp only [partitionPoint, List.getElem?_map, List.length_map, Option.any_map]
  rfl

/-- In an ascending row the places of a neighbor are in order and inside. -/
theorem slice?_partitionPoint {row : List Arc} (ascending : row.Pairwise (·.neighbor ≤ ·.neighbor))
    (x : Nat) :
    slice? row (partitionPoint row (·.neighbor < x)) (partitionPoint row (·.neighbor ≤ x)) =
      some (row.filter (·.neighbor = x)) := by
  have upTo := partitioned_of_ascending ascending fun _ _ => @Nat.le_trans _ _ x
  have below := partitioned_of_ascending ascending fun _ _ => @Nat.lt_of_le_of_lt _ _ x
  have inOrder : partitionPoint row (·.neighbor < x) ≤ partitionPoint row (·.neighbor ≤ x) := by
    rw [partitionPoint_eq upTo, partitionPoint_eq below, ← List.countP_eq_length_filter,
      ← List.countP_eq_length_filter]
    apply List.countP_mono_left
    intro arc _ lt
    exact decide_eq_true (Nat.le_of_lt (of_decide_eq_true lt))
  have inside : partitionPoint row (·.neighbor ≤ x) ≤ row.length := by
    rw [partitionPoint_eq upTo]
    exact List.length_filter_le ..
  rw [slice?, if_pos ⟨inOrder, inside⟩, ← List.drop_take, take_drop_eq_filter ascending]

theorem find?_arrays (h : a.WellFormed) {r : Nat} (hr : r < a.vertexCount) (x : Nat) :
    a.arrays.find? r x = some (a.find r x) := by
  rw [find_eq_between h, between, Arrays.find?, row?_arrays hr, sorted_arrays]
  cases sorted : a.sorted with
  | true =>
    have found := slice?_partitionPoint (h.row_ascending sorted r) x
    simp only [Option.bind_eq_bind, Option.bind_some, if_true, partitionPoint_map, slice?_map]
    exact congrArg (Option.map (List.map Arc.edge)) found
  | false =>
    simp only [Option.bind_eq_bind, Option.bind_some, Bool.false_eq_true, if_false, List.zip_map',
      List.filter_map, List.map_map]
    rfl

theorem hasRepeat?_arrays (a : Adjacency) : a.arrays.hasRepeat? = some a.hasRepeat := by
  have each : ∀ v ∈ List.range a.vertexCount,
      (do let (cols, _) ← a.arrays.row? v; pure (!decide cols.Nodup) : Option Bool) =
        some (!decide ((a.row v).map Arc.neighbor).Nodup) := by
    intro v hv
    rw [row?_arrays (List.mem_range.1 hv)]
    rfl
  rw [Arrays.hasRepeat?, vertexCount_arrays, anyM_eq_some each, hasRepeat, rows_eq_map_row,
    List.any_map]
  rfl

theorem rowsSorted?_arrays (a : Adjacency) :
    Arrays.rowsSorted? a.offsets a.neighbors = some (rowsSorted a.rows) := by
  have count : a.offsets.length - 1 = a.vertexCount := vertexCount_arrays a
  have each : ∀ v ∈ List.range a.vertexCount, (do
      let start ← a.offsets[v]?
      let stop ← a.offsets[v + 1]?
      let cols ← slice? a.neighbors start stop
      pure (isAscending cols) : Option Bool) = some (isAscending ((a.row v).map Arc.neighbor)) := by
    intro v hv
    have lt := List.mem_range.1 hv
    simp [getElem?_offsets (Nat.le_of_lt lt), getElem?_offsets lt, neighbors, slice?_map,
      slice?_arcs lt]
  rw [Arrays.rowsSorted?, count, allM_eq_some each, rowsSorted, rows_eq_map_row, List.all_map]
  rfl

theorem coordinates?_arrays (a : Adjacency) : a.arrays.coordinates? =
    some (a.entries.map Entry.row, a.entries.map Entry.col, a.entries.map Entry.edge) := by
  have each : ∀ v ∈ List.range a.vertexCount,
      (do let degree ← a.arrays.degree? v; pure (List.replicate degree v) : Option (List Nat)) =
        some (((a.row v).map fun arc => (⟨v, arc.neighbor, arc.edge⟩ : Entry)).map Entry.row) := by
    intro v hv
    rw [degree?_arrays (List.mem_range.1 hv), List.map_map]
    exact congrArg some (List.map_const' ..).symm
  have cols : a.neighbors = a.entries.map Entry.col := by
    rw [neighbors, ← map_arc_entries, List.map_map]
    rfl
  have ids : a.edgeIds = a.entries.map Entry.edge := by
    rw [edgeIds, ← map_arc_entries, List.map_map]
    rfl
  rw [Arrays.coordinates?, vertexCount_arrays, mapM_eq_some each, ← cols, ← ids,
    entries_eq_flatMap, List.map_flatMap, List.flatMap]
  rfl

end GraphRelay.Adjacency
