import GraphRelay.Proofs.Adjacency.Indexing
import Mathlib.Logic.ExistsUnique

/-!
# Runs and the rows they expand to

Offsets that start at 0 and never decrease cut the positions up to the last of them into runs, and an
expansion holds in every position the id of its run. The offsets of an adjacency expand its vertices to
the rows of its entries, and its rows put behind one another are its neighbors and edge ids.
-/
namespace GraphRelay

/-- What `expandRuns` asks of its offsets. -/
structure Delimits (offsets ids : List Nat) : Prop where
  length : offsets.length = ids.length + 1
  head : offsets.head? = some 0
  ascending : offsets.Pairwise (· ≤ ·)

/-- Position `j` lies in run `i`. -/
def InRun (offsets : List Nat) (i j : Nat) : Prop :=
  ∃ first next, offsets[i]? = some first ∧ offsets[i + 1]? = some next ∧ first ≤ j ∧ j < next

/-- The expansion with its offsets looked up place by place: none where one is missing or the two of a
run are out of order. -/
def expandPlaces? (ids offsets : List Nat) : Option (List Nat) :=
  ids.zipIdx.foldlM (fun out (id, i) => do
    let first ← offsets[i]?
    let next ← offsets[i + 1]?
    if first ≤ next then some (out ++ List.replicate (next - first) id) else none) []

section Runs

variable {ids offsets : List Nat} {first last i j k : Nat}

theorem le_of_places {a b : Nat} (ascending : offsets.Pairwise (· ≤ ·)) (order : i ≤ k)
    (ha : offsets[i]? = some a) (hb : offsets[k]? = some b) : a ≤ b := by
  obtain ⟨hi, rfl⟩ := List.getElem?_eq_some_iff.1 ha
  obtain ⟨hk, rfl⟩ := List.getElem?_eq_some_iff.1 hb
  obtain same | before := Nat.eq_or_lt_of_le order
  · subst same
    exact Nat.le_refl _
  · exact List.pairwise_iff_getElem.1 ascending i k hi hk before

theorem expandRuns_eq_ok_iff {out : List Nat} :
    expandRuns ids offsets = .ok out ↔ Delimits offsets ids ∧ out = repeatRuns ids offsets := by
  rw [expandRuns]
  split
  · next count => exact iff_of_false nofun fun h => count h.1.length
  next count =>
  split
  · next order =>
    rw [Bool.or_eq_true, decide_eq_true_iff, Bool.not_eq_true', ← Bool.not_eq_true,
      isAscending_iff] at order
    exact iff_of_false nofun fun h => order.elim (· h.1.head) (· h.1.ascending)
  next order =>
  rw [Bool.or_eq_true, not_or, decide_eq_true_iff, Bool.not_eq_true', Bool.not_eq_false,
    isAscending_iff, not_not] at order
  rw [Except.ok.injEq, eq_comm]
  exact (and_iff_right ⟨not_not.1 count, order.1, order.2⟩).symm

theorem kind_of_expandRuns_eq_error {f : Fault} (refused : expandRuns ids offsets = .error f) :
    f.kind = .precondition := by
  rw [expandRuns] at refused
  split at refused
  · cases refused
    rfl
  split at refused
  · cases refused
    rfl
  · cases refused

/-- The offsets of one id more begin with where its run begins and where the next one does. -/
theorem exists_next {id : Nat} (count : offsets.length = (id :: ids).length + 1)
    (ascending : offsets.Pairwise (· ≤ ·)) (head : offsets.head? = some first) :
    ∃ next rest, offsets = first :: next :: rest ∧ (next :: rest).length = ids.length + 1 ∧
      first ≤ next ∧ (next :: rest).Pairwise (· ≤ ·) := by
  match offsets, head with
  | [_], _ => simp at count
  | a :: next :: rest, head =>
    obtain rfl : a = first := Option.some.inj head
    obtain ⟨least, later⟩ := List.pairwise_cons.1 ascending
    exact ⟨next, rest, rfl, Nat.succ.inj count, least next List.mem_cons_self, later⟩

/-- The runs reach from the first offset to the last. -/
theorem getLast?_eq_length_repeatRuns (count : offsets.length = ids.length + 1)
    (ascending : offsets.Pairwise (· ≤ ·)) (head : offsets.head? = some first) :
    offsets.getLast? = some (first + (repeatRuns ids offsets).length) := by
  induction ids generalizing offsets first with
  | nil =>
    obtain ⟨only, rfl⟩ := List.length_eq_one_iff.1 count
    exact head
  | cons id ids ih =>
    obtain ⟨next, rest, rfl, others, order, later⟩ := exists_next count ascending head
    rw [List.getLast?_cons_cons, ih others later rfl, repeatRuns, List.length_append,
      List.length_replicate]
    congr 1
    omega

/-- In a run stands its id. -/
theorem getElem?_repeatRuns (count : offsets.length = ids.length + 1)
    (ascending : offsets.Pairwise (· ≤ ·)) (head : offsets.head? = some first)
    (run : InRun offsets i (first + j)) :
    ∃ id, ids[i]? = some id ∧ (repeatRuns ids offsets)[j]? = some id := by
  obtain ⟨lo, hi, hlo, hhi, le, lt⟩ := run
  induction ids generalizing offsets first i j with
  | nil =>
    obtain ⟨only, rfl⟩ := List.length_eq_one_iff.1 count
    simp at hhi
  | cons id ids ih =>
    obtain ⟨next, rest, rfl, others, order, later⟩ := exists_next count ascending head
    rw [repeatRuns]
    cases i with
    | zero =>
      obtain rfl : next = hi := by simpa using hhi
      have inside : j < next - first := by omega
      exact ⟨id, rfl, by rw [List.getElem?_append_left (by simpa using inside),
        List.getElem?_replicate_of_lt inside]⟩
    | succ i =>
      rw [List.getElem?_cons_succ] at hlo hhi
      have behind : next ≤ lo := le_of_places later (Nat.zero_le i) rfl hlo
      have position : first + j = next + (j - (next - first)) := by omega
      rw [position] at le lt
      rw [List.getElem?_cons_succ, List.getElem?_append_right (by rw [List.length_replicate]; omega),
        List.length_replicate]
      exact ih others later rfl hlo hhi le lt

theorem exists_inRun (head : offsets.head? = some first) (final : offsets.getLast? = some last)
    (from_first : first ≤ j) (before : j < last) : ∃ i, InRun offsets i j := by
  induction offsets generalizing first with
  | nil => cases head
  | cons a rest ih =>
    obtain rfl : a = first := Option.some.inj head
    match rest, final with
    | [], final =>
      obtain rfl : a = last := Option.some.inj final
      omega
    | b :: rest, final =>
      by_cases here : j < b
      · exact ⟨0, a, b, rfl, rfl, from_first, here⟩
      · obtain ⟨i, lo, hi, run⟩ := ih rfl (by rwa [List.getLast?_cons_cons] at final) (by omega)
        exact ⟨i + 1, lo, hi, run⟩

/-- A run ends where the next begins or before, so that no later one has a position of it. -/
theorem InRun.le (ascending : offsets.Pairwise (· ≤ ·)) (run : InRun offsets i j)
    (other : InRun offsets k j) : k ≤ i := by
  obtain ⟨_, next, -, hnext, -, lt⟩ := run
  obtain ⟨first, _, hfirst, -, le, -⟩ := other
  refine Nat.le_of_not_lt fun before => ?_
  have apart : next ≤ first := le_of_places ascending before hnext hfirst
  omega

theorem InRun.unique (ascending : offsets.Pairwise (· ≤ ·)) (run : InRun offsets i j)
    (other : InRun offsets k j) : i = k :=
  Nat.le_antisymm (other.le ascending run) (run.le ascending other)

/-- Between offsets that ascend no look-up fails. -/
theorem foldlM_expand {done : List Nat} (count : (offsets.drop k).length = ids.length + 1)
    (ascending : offsets.Pairwise (· ≤ ·)) :
    (ids.zipIdx k).foldlM (fun out (id, i) => do
      let first ← offsets[i]?
      let next ← offsets[i + 1]?
      if first ≤ next then some (out ++ List.replicate (next - first) id) else none) done =
        some (done ++ repeatRuns ids (offsets.drop k)) := by
  induction ids generalizing k done with
  | nil =>
    obtain ⟨only, split⟩ := List.length_eq_one_iff.1 count
    rw [split, repeatRuns]
    · simp
    · simp
  | cons id ids ih =>
    rw [List.length_drop, List.length_cons] at count
    have bound : k + 1 < offsets.length := by omega
    have here : offsets[k]? = some offsets[k] := List.getElem?_eq_getElem _
    have next : offsets[k + 1]? = some offsets[k + 1] := List.getElem?_eq_getElem _
    have order : offsets[k] ≤ offsets[k + 1] := le_of_places ascending (Nat.le_succ k) here next
    have later : offsets.drop (k + 1) = offsets[k + 1] :: offsets.drop (k + 2) :=
      List.drop_eq_getElem_cons bound
    rw [List.drop_eq_getElem_cons (Nat.lt_of_succ_lt bound), later, repeatRuns, ← later,
      ← List.append_assoc]
    simp only [List.zipIdx_cons, List.foldlM_cons, here, next, Option.bind_eq_bind,
      Option.bind_some, order, if_true]
    exact ih (by rw [List.length_drop]; omega)

theorem Delimits.expandPlaces?_eq (h : Delimits offsets ids) :
    expandPlaces? ids offsets = some (repeatRuns ids offsets) :=
  foldlM_expand h.length h.ascending

end Runs

namespace Adjacency

theorem delimits_offsets (a : Adjacency) : Delimits a.offsets (List.range a.vertexCount) where
  length := by
    rw [offsets, length_offsetsFrom, List.length_range]
    rfl
  head := head?_offsetsFrom 0 a.rows
  ascending := pairwise_offsetsFrom 0 a.rows

theorem expandRuns_offsets (a : Adjacency) :
    expandRuns (List.range a.vertexCount) a.offsets = .ok (a.entries.map Entry.row) := by
  refine expandRuns_eq_ok_iff.2 ⟨delimits_offsets a, ?_⟩
  rw [List.range_eq_range']
  exact map_row_entriesFrom 0 0 a.rows

/-- The rows put behind one another are the arcs of the entries. -/
theorem flatten_map_row (a : Adjacency) (f : Arc → Nat) :
    ((List.range a.vertexCount).map fun v => (a.row v).map f).flatten =
      a.entries.map (f ∘ Entry.arc) := by
  rw [← List.map_map, map_arc_entries, arcs, rows_eq_map_row, List.map_flatten, List.map_map]
  rfl

end Adjacency

/-- Exactly the offsets that delimit a run for each id are accepted, and the others are a fault of
precondition. The expansion reaches up to the last offset, each of its positions lies in one run, and
there stands the id of that run; no look-up leaves the offsets. The offsets of an adjacency expand its
vertices to the rows of its entries, and its rows put behind one another give their columns and ids. -/
theorem expandRuns_positions :
    (∀ ids offsets, ((∃ out, expandRuns ids offsets = .ok out) ↔ Delimits offsets ids) ∧
      (∀ f, expandRuns ids offsets = .error f → f.kind = .precondition) ∧
      ∀ out, expandRuns ids offsets = .ok out → offsets.getLast? = some out.length ∧
        (∀ j < out.length, ∃! i, InRun offsets i j) ∧
        (∀ i j, InRun offsets i j → ∃ id, ids[i]? = some id ∧ out[j]? = some id) ∧
        expandPlaces? ids offsets = some out) ∧
    ∀ a : Adjacency, ∃ rows cols edges parts,
      a.arrays.coordinates? = some (rows, cols, edges) ∧
      expandRuns (List.range a.vertexCount) a.arrays.offsets = .ok rows ∧
      (List.range a.vertexCount).mapM a.arrays.row? = some parts ∧
      (parts.map Prod.fst).flatten = cols ∧ (parts.map Prod.snd).flatten = edges := by
  refine ⟨fun ids offsets => ⟨?_, fun f => kind_of_expandRuns_eq_error, fun out made => ?_⟩,
    fun a => ?_⟩
  · simp [expandRuns_eq_ok_iff]
  · obtain ⟨delimits, rfl⟩ := expandRuns_eq_ok_iff.1 made
    have final := getLast?_eq_length_repeatRuns delimits.length delimits.ascending delimits.head
    rw [Nat.zero_add] at final
    refine ⟨final, fun j inside => ?_, fun i j run => ?_, delimits.expandPlaces?_eq⟩
    · obtain ⟨i, run⟩ := exists_inRun delimits.head final (Nat.zero_le j) inside
      exact ⟨i, run, fun k other => InRun.unique delimits.ascending other run⟩
    · exact getElem?_repeatRuns delimits.length delimits.ascending delimits.head
        (by rwa [Nat.zero_add])
  · have read := Adjacency.mapM_eq_some fun v (hv : v ∈ List.range a.vertexCount) =>
      Adjacency.row?_arrays (List.mem_range.1 hv)
    refine ⟨_, _, _, _, Adjacency.coordinates?_arrays a, Adjacency.expandRuns_offsets a, read, ?_, ?_⟩
    · rw [List.map_map]
      exact a.flatten_map_row Arc.neighbor
    · rw [List.map_map]
      exact a.flatten_map_row Arc.edge

/-- An id whose run is empty, offsets that decrease, and an adjacency with an empty row. -/
theorem expandRuns_positions_empty :
    expandRuns [7, 8, 9] [0, 2, 2, 3] = .ok [7, 7, 9] ∧ (∃! i, InRun [0, 2, 2, 3] i 2) ∧
    (∃ id, [7, 8, 9][2]? = some id ∧ [7, 7, 9][2]? = some id) ∧
    ¬(∃ out, expandRuns [7, 8] [0, 2, 1] = .ok out) ∧
    ∃ parts, (List.range 3).mapM (Adjacency.Arrays.mk [0, 2, 2, 3] [1, 0, 2] [4, 5, 6] false).row? =
      some parts ∧ (parts.map Prod.fst).flatten = [1, 0, 2] := by
  obtain ⟨-, -, expanded⟩ := expandRuns_positions.1 [7, 8, 9] [0, 2, 2, 3]
  obtain ⟨-, single, stands, -⟩ := expanded [7, 7, 9] rfl
  have run : InRun [0, 2, 2, 3] 2 2 := ⟨2, 3, rfl, rfl, by decide, by decide⟩
  refine ⟨rfl, single 2 (by decide), stands 2 2 run, fun made => ?_, ?_⟩
  · have delimits := (expandRuns_positions.1 [7, 8] [0, 2, 1]).1.1 made
    exact absurd delimits.ascending (by decide)
  · obtain ⟨_, _, _, parts, coordinates, -, read, cols, -⟩ :=
      expandRuns_positions.2 ⟨[[⟨1, 4⟩, ⟨0, 5⟩], [], [⟨2, 6⟩]], false⟩
    have known := coordinates.symm.trans (show _ = some ([0, 0, 2], [1, 0, 2], [4, 5, 6]) from rfl)
    simp only [Option.some.injEq, Prod.mk.injEq] at known
    exact ⟨parts, read, cols.trans known.2.1⟩

end GraphRelay
