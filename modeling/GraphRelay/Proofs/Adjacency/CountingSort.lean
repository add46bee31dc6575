import GraphRelay.Proofs.Adjacency.Entries

/-!
# The counting sort behind rows

Three passes put entries into rows: the entries of each row are counted, the counts are summed up to
where each row starts, and each entry goes where the cursor of its row stands. While entries are
placed a cursor stands behind those of its row that were placed before, so no two entries meet.
-/
namespace GraphRelay.Adjacency

/-- Where row `v` starts: behind the entries of all rows before it. -/
def rowStart (entries : List Entry) (v : Nat) : Nat := entries.countP (·.row < v)

theorem rowStart_zero (entries : List Entry) : rowStart entries 0 = 0 := by
  simp [rowStart]

theorem rowStart_succ (entries : List Entry) (v : Nat) :
    rowStart entries (v + 1) = rowStart entries v + (arcsOf v entries).length := by
  induction entries with
  | nil => rfl
  | cons e entries ih =>
    rw [rowStart, rowStart] at ih ⊢
    rw [List.countP_cons, List.countP_cons, ih, arcsOf_cons]
    simp only [decide_eq_true_eq]
    by_cases here : e.row = v
    · simp [here]
      omega
    · rw [if_neg here]
      by_cases before : e.row < v
      · rw [if_pos (by omega), if_pos before]
        omega
      · rw [if_neg (by omega), if_neg before]
        omega

theorem rowStart_mono (entries : List Entry) {v w : Nat} (h : v ≤ w) :
    rowStart entries v ≤ rowStart entries w := by
  apply List.countP_mono_left
  intro e _ he
  simp only [decide_eq_true_eq] at he ⊢
  omega

theorem rowStart_le_length (entries : List Entry) (v : Nat) :
    rowStart entries v ≤ entries.length := List.countP_le_length

/-- All row starts and, behind them, the number of entries. -/
def rowStarts (n : Nat) (entries : List Entry) : List Nat :=
  (List.range (n + 1)).map (rowStart entries)

theorem pairwise_rowStarts (n : Nat) (entries : List Entry) :
    (rowStarts n entries).Pairwise (· ≤ ·) := by
  rw [rowStarts, List.pairwise_map]
  exact List.pairwise_lt_range.imp fun h => rowStart_mono entries (Nat.le_of_lt h)

theorem getElem?_rowStarts {n v : Nat} (entries : List Entry) (hv : v < n + 1) :
    (rowStarts n entries)[v]? = some (rowStart entries v) := by
  rw [rowStarts, List.getElem?_map, List.getElem?_range hv]
  rfl

theorem length_rowLengths_rowStarts (n : Nat) (entries : List Entry) :
    (rowLengths (rowStarts n entries)).length = n := by
  rw [rowStarts, List.range_succ_eq_map, List.map_cons, length_rowLengths]
  simp

theorem getElem?_countRows (n i : Nat) (entries : List Entry) (hi : i < n + 1) :
    (countRows n entries)[i]? = some (entries.countP (·.row + 1 = i)) := by
  have counted : ∀ counts : Array Nat,
      (entries.foldl (fun counts e => counts.modify (e.row + 1) (· + 1)) counts)[i]? =
        counts[i]?.map (· + entries.countP (·.row + 1 = i)) := by
    induction entries with
    | nil => simp
    | cons e entries ih =>
      intro counts
      rw [List.foldl_cons, ih, Array.getElem?_modify, List.countP_cons]
      by_cases here : e.row + 1 = i
      · simp only [here, if_true, decide_true, Option.map_map]
        congr 1
        funext k
        simp only [Function.comp_apply]
        omega
      · simp [here]
  rw [countRows, counted, Array.getElem?_replicate, if_pos hi]
  simp

/-- After the sums of the first `k` places the place `i` is either summed up or still a count. -/
theorem getElem?_accumulate (n k i : Nat) (entries : List Entry) (hk : k ≤ n) (hi : i < n + 1) :
    (accumulate k (countRows n entries))[i]? =
      some (if i ≤ k then rowStart entries i else entries.countP (·.row + 1 = i)) := by
  induction k generalizing i with
  | zero =>
    rw [accumulate, Nat.fold_zero, getElem?_countRows n i entries hi]
    by_cases zero : i ≤ 0
    · obtain rfl : i = 0 := by omega
      simp [rowStart]
    · rw [if_neg zero]
  | succ k ih =>
    have before := ih k (by omega) (by omega)
    rw [if_pos (Nat.le_refl k)] at before
    rw [accumulate, Nat.fold_succ, ← accumulate, before, Option.getD_some, Array.getElem?_modify,
      ih i (by omega) hi]
    by_cases here : k + 1 = i
    · subst here
      have own : entries.countP (·.row + 1 = k + 1) = (arcsOf k entries).length := by
        simp [length_arcsOf]
      simp only [if_true, Nat.not_succ_le_self, if_false, Option.map_some, Nat.le_refl, own,
        rowStart_succ]
      rw [Nat.add_comm]
    · rw [if_neg here]
      congr 1
      by_cases le : i ≤ k
      · rw [if_pos le, if_pos (by omega)]
      · rw [if_neg le, if_neg (by omega)]

theorem size_countRows (n : Nat) (entries : List Entry) : (countRows n entries).size = n + 1 := by
  have kept : ∀ counts : Array Nat,
      (entries.foldl (fun counts e => counts.modify (e.row + 1) (· + 1)) counts).size =
        counts.size := by
    induction entries with
    | nil => exact fun _ => rfl
    | cons e entries ih => exact fun counts => by rw [List.foldl_cons, ih, Array.size_modify]
  rw [countRows, kept, Array.size_replicate]

theorem size_accumulate (n : Nat) (counts : Array Nat) : (accumulate n counts).size = counts.size := by
  induction n with
  | zero => rfl
  | succ n ih => rw [accumulate, Nat.fold_succ, ← accumulate, Array.size_modify, ih]

theorem toList_accumulate (n : Nat) (entries : List Entry) :
    (accumulate n (countRows n entries)).toList = rowStarts n entries := by
  apply List.ext_getElem?
  intro i
  rw [Array.getElem?_toList, rowStarts, List.getElem?_map]
  by_cases hi : i < n + 1
  · rw [getElem?_accumulate n n i entries (Nat.le_refl n) hi, List.getElem?_range hi,
      if_pos (Nat.le_of_lt_succ hi)]
    rfl
  · have size : (accumulate n (countRows n entries)).size ≤ i := by
      rw [size_accumulate, size_countRows]
      omega
    rw [Array.getElem?_eq_none size, List.getElem?_eq_none (by simpa using Nat.le_of_not_lt hi)]
    rfl

/-- What holds while entries are placed: `done` are the entries placed so far. -/
structure Placed (n : Nat) (entries done : List Entry) (cursors : Array Nat) (slots : Array Arc) :
    Prop where
  size_cursors : cursors.size = n
  size_slots : slots.size = entries.length
  cursor : ∀ v < n, cursors[v]? = some (rowStart entries v + (arcsOf v done).length)
  slot : ∀ v < n, ∀ i arc, (arcsOf v done)[i]? = some arc →
    slots[rowStart entries v + i]? = some arc

theorem arcsOf_concat (v : Nat) (done : List Entry) (e : Entry) :
    arcsOf v (done ++ [e]) = if e.row = v then arcsOf v done ++ [e.arc] else arcsOf v done := by
  rw [arcsOf_append, arcsOf_cons, arcsOf_nil]
  split
  · rfl
  · rw [List.append_nil]

theorem length_arcsOf_le {entries done rest : List Entry} (split : done ++ rest = entries) (v : Nat) :
    (arcsOf v done).length ≤ (arcsOf v entries).length := by
  rw [← split, arcsOf_append, List.length_append]
  omega

/-- The cursor of a row with an entry still to come stands inside the row. -/
theorem length_arcsOf_lt {entries done rest : List Entry} {e : Entry}
    (split : done ++ e :: rest = entries) :
    (arcsOf e.row done).length < (arcsOf e.row entries).length := by
  rw [← split, arcsOf_append, arcsOf_cons, if_pos rfl, List.length_append, List.length_cons]
  omega

/-- Places inside two rows are never the same place. -/
theorem rowStart_add_ne {entries : List Entry} {v w i j : Nat} (hvw : v ≠ w)
    (hi : i < (arcsOf v entries).length) (hj : j < (arcsOf w entries).length) :
    rowStart entries v + i ≠ rowStart entries w + j := by
  rcases Nat.lt_or_gt_of_ne hvw with lt | lt
  · have := rowStart_mono entries (show v + 1 ≤ w from lt)
    rw [rowStart_succ] at this
    omega
  · have := rowStart_mono entries (show w + 1 ≤ v from lt)
    rw [rowStart_succ] at this
    omega

section Step

variable {n : Nat} {entries done rest : List Entry} {e : Entry} {cursors : Array Nat}
  {slots : Array Arc}

/-- An entry of a row goes behind those of its row and into no other row. -/
theorem Placed.slot_next (h : Placed n entries done cursors slots)
    (split : done ++ e :: rest = entries) (he : e.row < n) {v i : Nat} {arc : Arc} (hv : v < n)
    (harc : (arcsOf v (done ++ [e]))[i]? = some arc) :
    (slots.setIfInBounds (rowStart entries e.row + (arcsOf e.row done).length) e.arc)[
      rowStart entries v + i]? = some arc := by
  have inside := length_arcsOf_lt split
  rw [arcsOf_concat] at harc
  by_cases hrow : e.row = v
  · subst hrow
    rw [if_pos rfl] at harc
    by_cases hi : i < (arcsOf e.row done).length
    · rw [List.getElem?_append_left hi] at harc
      rw [Array.getElem?_setIfInBounds_ne (by omega)]
      exact h.slot e.row he i arc harc
    · have last : i = (arcsOf e.row done).length := by
        have := (List.getElem?_eq_some_iff.1 harc).1
        simp at this
        omega
      subst last
      obtain rfl : e.arc = arc := by simpa using harc
      have next := rowStart_succ entries e.row
      have fits := rowStart_le_length entries (e.row + 1)
      rw [Array.getElem?_setIfInBounds_self_of_lt (by rw [h.size_slots]; omega)]
  · rw [if_neg hrow] at harc
    have hi : i < (arcsOf v done).length := (List.getElem?_eq_some_iff.1 harc).1
    have own := length_arcsOf_le split v
    rw [Array.getElem?_setIfInBounds_ne (rowStart_add_ne hrow inside (by omega))]
    exact h.slot v hv i arc harc

theorem Placed.next (h : Placed n entries done cursors slots)
    (split : done ++ e :: rest = entries) :
    Placed n entries (done ++ [e]) (place (cursors, slots) e).1 (place (cursors, slots) e).2 := by
  by_cases he : e.row < n
  · rw [place, h.cursor e.row he]
    refine ⟨by simpa using h.size_cursors, by simpa using h.size_slots, fun v hv => ?_,
      fun v hv i arc harc => h.slot_next split he hv harc⟩
    rw [Array.getElem?_modify, h.cursor v hv, arcsOf_concat]
    split
    · simp [Nat.add_assoc]
    · rfl
  · have out : cursors[e.row]? = none :=
      Array.getElem?_eq_none (by rw [h.size_cursors]; omega)
    have same : ∀ v < n, arcsOf v (done ++ [e]) = arcsOf v done := by
      intro v hv
      rw [arcsOf_concat, if_neg (by omega)]
    rw [place, out]
    refine ⟨h.size_cursors, h.size_slots, fun v hv => ?_, fun v hv i arc harc => ?_⟩
    · rw [same v hv]
      exact h.cursor v hv
    · rw [same v hv] at harc
      exact h.slot v hv i arc harc

theorem Placed.all (h : Placed n entries done cursors slots) (split : done ++ rest = entries) :
    Placed n entries entries (rest.foldl place (cursors, slots)).1
      (rest.foldl place (cursors, slots)).2 := by
  induction rest generalizing done cursors slots with
  | nil =>
    rw [List.append_nil] at split
    rwa [← split] at h ⊢
  | cons e rest ih =>
    rw [List.foldl_cons]
    exact ih (h.next split) (by rw [List.append_assoc]; exact split)

end Step

theorem placed_start (n : Nat) (entries : List Entry) :
    Placed n entries [] ((accumulate n (countRows n entries)).extract 0 n)
      (Array.replicate entries.length ⟨0, 0⟩) := by
  have size : (accumulate n (countRows n entries)).size = n + 1 := by
    rw [size_accumulate, size_countRows]
  refine ⟨by simp [size], by simp, fun v hv => ?_, by simp⟩
  rw [Array.getElem?_extract, if_pos (by omega), Nat.zero_add,
    getElem?_accumulate n n v entries (Nat.le_refl n) (by omega), if_pos (by omega)]
  simp

/-- Once all are placed, the part of a row holds its entries. -/
theorem Placed.row {n : Nat} {entries : List Entry} {cursors : Array Nat} {slots : Array Arc}
    (h : Placed n entries entries cursors slots) {v : Nat} (hv : v < n) :
    (slots.toList.drop (rowStart entries v)).take (arcsOf v entries).length = arcsOf v entries := by
  apply List.ext_getElem?
  intro i
  by_cases hi : i < (arcsOf v entries).length
  · have here := h.slot v hv i _ (List.getElem?_eq_getElem hi)
    rw [List.getElem?_take_of_lt hi, List.getElem?_drop, Array.getElem?_toList, here,
      List.getElem?_eq_getElem hi]
  · rw [List.getElem?_take_eq_none (by omega), List.getElem?_eq_none (by omega)]

/-- A row gets the entries listed for it, in the order they are listed. -/
theorem distribute_eq (n : Nat) (entries : List Entry) :
    distribute n entries = (List.range n).map fun v => arcsOf v entries := by
  have placed := (placed_start n entries).all (List.nil_append entries)
  rw [distribute, toList_accumulate]
  generalize entries.foldl place _ = state at placed ⊢
  obtain ⟨cursors, slots⟩ := state
  apply List.ext_getElem?
  intro v
  by_cases hv : v < n
  · have first := getElem?_rowStarts entries (show 0 < n + 1 by omega)
    have this := getElem?_rowStarts entries (show v < n + 1 by omega)
    have next := getElem?_rowStarts entries (show v + 1 < n + 1 by omega)
    have length : (rowLengths (rowStarts n entries))[v]? = some (arcsOf v entries).length := by
      rw [getElem?_rowLengths this next, rowStart_succ, Nat.add_sub_cancel_left]
    have start := sum_take_rowLengths (pairwise_rowStarts n entries) first this
    rw [rowStart_zero, Nat.zero_add] at start
    rw [getElem?_cut length, start, placed.row hv, List.getElem?_map, List.getElem?_range hv]
    rfl
  · rw [List.getElem?_eq_none, List.getElem?_eq_none]
    · simpa using Nat.le_of_not_lt hv
    · rw [length_cut, length_rowLengths_rowStarts]
      exact Nat.le_of_not_lt hv

end GraphRelay.Adjacency
