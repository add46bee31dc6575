import GraphRelay.Proofs.Adjacency.Rows

/-!
# Entries of an adjacency

Entries come row by row. A list of entries in this order is known from what it lists for each row,
which makes it the stable arrangement of any list with the same rows.
-/
namespace GraphRelay

theorem Entry.eq_of_row_of_arc {x y : Entry} (row : x.row = y.row) (arc : x.arc = y.arc) :
    x = y := by
  cases x
  cases y
  simp_all [Entry.arc]

section Keys

variable {α : Type} (key : α → Nat)

theorem le_key_trans (x y z : α) (hxy : decide (key x ≤ key y) = true)
    (hyz : decide (key y ≤ key z) = true) : decide (key x ≤ key z) = true :=
  decide_eq_true (Nat.le_trans (of_decide_eq_true hxy) (of_decide_eq_true hyz))

theorem le_key_total (x y : α) : (decide (key x ≤ key y) || decide (key y ≤ key x)) = true := by
  simpa using Nat.le_total (key x) (key y)

theorem pairwise_mergeSort_key (xs : List α) :
    (xs.mergeSort fun x y => key x ≤ key y).Pairwise (key · ≤ key ·) :=
  (List.pairwise_mergeSort (le_key_trans key) (le_key_total key) xs).imp fun h => of_decide_eq_true h

end Keys

namespace Adjacency

/-- The arcs that a list of entries has for row `v`, in order. -/
def arcsOf (v : Nat) (entries : List Entry) : List Arc :=
  (entries.filter (·.row = v)).map Entry.arc

@[simp] theorem arcsOf_nil (v : Nat) : arcsOf v [] = [] := rfl

theorem arcsOf_cons (v : Nat) (e : Entry) (entries : List Entry) :
    arcsOf v (e :: entries) = if e.row = v then e.arc :: arcsOf v entries else arcsOf v entries := by
  by_cases h : e.row = v <;> simp [arcsOf, h]

@[simp] theorem arcsOf_append (v : Nat) (xs ys : List Entry) :
    arcsOf v (xs ++ ys) = arcsOf v xs ++ arcsOf v ys := by
  simp [arcsOf]

theorem length_arcsOf (v : Nat) (entries : List Entry) :
    (arcsOf v entries).length = entries.countP (·.row = v) := by
  rw [arcsOf, List.length_map, List.countP_eq_length_filter]

theorem arcsOf_eq_nil {v : Nat} {entries : List Entry} (h : ∀ e ∈ entries, e.row ≠ v) :
    arcsOf v entries = [] := by
  rw [arcsOf, List.map_eq_nil_iff, List.filter_eq_nil_iff]
  simpa using h

theorem mem_arcsOf {v : Nat} {entries : List Entry} {arc : Arc} :
    arc ∈ arcsOf v entries ↔ ⟨v, arc.neighbor, arc.edge⟩ ∈ entries := by
  simp only [arcsOf, List.mem_map, List.mem_filter, decide_eq_true_eq]
  constructor
  · rintro ⟨e, ⟨he, rfl⟩, rfl⟩
    exact he
  · intro h
    exact ⟨_, ⟨h, rfl⟩, rfl⟩

theorem mem_entriesFrom {start : Nat} {rows : List (List Arc)} {e : Entry} :
    e ∈ entriesFrom start rows ↔ ∃ v row, rows[v]? = some row ∧ e.row = start + v ∧ e.arc ∈ row := by
  induction rows generalizing start with
  | nil => simp [entriesFrom]
  | cons first rows ih =>
    rw [entriesFrom, List.mem_append, ih, List.mem_map]
    constructor
    · rintro (⟨arc, harc, rfl⟩ | ⟨v, row, hrow, he, harc⟩)
      · exact ⟨0, first, rfl, rfl, harc⟩
      · exact ⟨v + 1, row, hrow, by omega, harc⟩
    · rintro ⟨v, row, hrow, he, harc⟩
      cases v with
      | zero =>
        obtain rfl : first = row := by simpa using hrow
        exact .inl ⟨e.arc, harc, Entry.eq_of_row_of_arc he.symm rfl⟩
      | succ v => exact .inr ⟨v, row, hrow, by omega, harc⟩

theorem le_row_of_mem_entriesFrom {start : Nat} {rows : List (List Arc)} {e : Entry}
    (h : e ∈ entriesFrom start rows) : start ≤ e.row := by
  obtain ⟨v, _, -, he, -⟩ := mem_entriesFrom.1 h
  omega

theorem row_lt_of_mem_entriesFrom {start : Nat} {rows : List (List Arc)} {e : Entry}
    (h : e ∈ entriesFrom start rows) : e.row < start + rows.length := by
  obtain ⟨v, _, hrow, he, -⟩ := mem_entriesFrom.1 h
  have := (List.getElem?_eq_some_iff.1 hrow).1
  omega

theorem arcsOf_row (v : Nat) (row : List Arc) :
    arcsOf v (row.map fun arc => ⟨v, arc.neighbor, arc.edge⟩) = row := by
  induction row with
  | nil => rfl
  | cons arc row ih => simp [arcsOf_cons, ih, Entry.arc]

theorem arcsOf_entriesFrom (start v : Nat) (rows : List (List Arc)) :
    arcsOf (start + v) (entriesFrom start rows) = rows[v]?.getD [] := by
  induction rows generalizing start v with
  | nil => rfl
  | cons first rows ih =>
    rw [entriesFrom, arcsOf_append]
    cases v with
    | zero =>
      have later : arcsOf start (entriesFrom (start + 1) rows) = [] :=
        arcsOf_eq_nil fun e he => by
          have := le_row_of_mem_entriesFrom he
          omega
      rw [Nat.add_zero, arcsOf_row, later, List.append_nil]
      rfl
    | succ v =>
      have here : arcsOf (start + (v + 1))
          (first.map fun arc => (⟨start, arc.neighbor, arc.edge⟩ : Entry)) = [] :=
        arcsOf_eq_nil (by simp)
      have next := ih (start + 1) v
      rw [Nat.add_right_comm, Nat.add_assoc] at next
      rw [here, List.nil_append, next]
      rfl

/-- A row is what the entries list for it. -/
theorem arcsOf_entries (a : Adjacency) (v : Nat) : arcsOf v a.entries = a.row v := by
  have h := arcsOf_entriesFrom 0 v a.rows
  rwa [Nat.zero_add] at h

theorem mem_entries {a : Adjacency} {e : Entry} : e ∈ a.entries ↔ e.arc ∈ a.row e.row := by
  rw [← arcsOf_entries, mem_arcsOf]
  rfl

theorem row_lt_of_mem_entries {a : Adjacency} {e : Entry} (h : e ∈ a.entries) :
    e.row < a.vertexCount := by
  simpa [vertexCount] using row_lt_of_mem_entriesFrom h

theorem map_arc_entriesFrom (start : Nat) (rows : List (List Arc)) :
    (entriesFrom start rows).map Entry.arc = rows.flatten := by
  induction rows generalizing start with
  | nil => rfl
  | cons row rows ih =>
    have same : (Entry.arc ∘ fun arc : Arc => (⟨start, arc.neighbor, arc.edge⟩ : Entry)) = id := rfl
    rw [entriesFrom, List.map_append, ih, List.map_map, same, List.map_id, List.flatten_cons]

theorem map_arc_entries (a : Adjacency) : a.entries.map Entry.arc = a.arcs :=
  map_arc_entriesFrom 0 a.rows

theorem zipEntries_map (entries : List Entry) :
    zipEntries (entries.map Entry.row) (entries.map Entry.col) (entries.map Entry.edge) =
      entries := by
  induction entries with
  | nil => rfl
  | cons e entries ih => exact congrArg (e :: ·) ih

theorem entriesFrom_eq_flatMap (start : Nat) (rows : List (List Arc)) :
    entriesFrom start rows = (List.range rows.length).flatMap fun v =>
      (rows[v]?.getD []).map fun arc => ⟨start + v, arc.neighbor, arc.edge⟩ := by
  induction rows generalizing start with
  | nil => rfl
  | cons row rows ih =>
    rw [entriesFrom, ih, List.length_cons, List.range_succ_eq_map, List.flatMap_cons,
      List.flatMap_map]
    congr 1
    simp only [List.getElem?_cons_succ, Nat.add_right_comm start 1, Nat.add_assoc]

theorem entries_eq_flatMap (a : Adjacency) :
    a.entries = (List.range a.vertexCount).flatMap fun v =>
      (a.row v).map fun arc => ⟨v, arc.neighbor, arc.edge⟩ := by
  rw [entries, entriesFrom_eq_flatMap]
  simp only [Nat.zero_add]
  rfl

theorem pairwise_entriesFrom (start : Nat) (rows : List (List Arc)) :
    (entriesFrom start rows).Pairwise (·.row ≤ ·.row) := by
  induction rows generalizing start with
  | nil => simp [entriesFrom]
  | cons row rows ih =>
    rw [entriesFrom, List.pairwise_append]
    refine ⟨?_, ih _, ?_⟩
    · rw [List.pairwise_map]
      exact List.pairwise_of_forall fun _ _ => Nat.le_refl _
    · intro x hx y hy
      obtain ⟨arc, -, rfl⟩ := List.mem_map.1 hx
      exact Nat.le_of_succ_le (le_row_of_mem_entriesFrom hy)

theorem pairwise_entries (a : Adjacency) : a.entries.Pairwise (·.row ≤ ·.row) :=
  pairwise_entriesFrom 0 a.rows

/-- Two lists in row order that agree on every row are equal. -/
theorem eq_of_arcsOf_eq {xs ys : List Entry} (hx : xs.Pairwise (·.row ≤ ·.row))
    (hy : ys.Pairwise (·.row ≤ ·.row)) (h : ∀ v, arcsOf v xs = arcsOf v ys) : xs = ys := by
  induction xs generalizing ys with
  | nil =>
    cases ys with
    | nil => rfl
    | cons y ys => simpa [arcsOf_cons] using h y.row
  | cons x xs ih =>
    cases ys with
    | nil => simpa [arcsOf_cons] using h x.row
    | cons y ys =>
      rw [List.pairwise_cons] at hx hy
      have hxy : x.row ≤ y.row := by
        have : y.arc ∈ arcsOf y.row (x :: xs) := by simp [h, arcsOf_cons]
        rcases List.mem_cons.1 (mem_arcsOf.1 this) with rfl | later
        · exact Nat.le_refl _
        · exact hx.1 _ later
      have hyx : y.row ≤ x.row := by
        have : x.arc ∈ arcsOf x.row (y :: ys) := by simp [← h, arcsOf_cons]
        rcases List.mem_cons.1 (mem_arcsOf.1 this) with rfl | later
        · exact Nat.le_refl _
        · exact hy.1 _ later
      have row : x.row = y.row := Nat.le_antisymm hxy hyx
      have head := h y.row
      simp only [arcsOf_cons, row, if_true, List.cons.injEq] at head
      obtain rfl : x = y := Entry.eq_of_row_of_arc row head.1
      congr 1
      refine ih hx.2 hy.2 fun v => ?_
      have both := h v
      simp only [arcsOf_cons] at both
      split at both
      · exact (List.cons.inj both).2
      · exact both

/-- Entries in the order of their rows. -/
def rowLE (x y : Entry) : Bool := x.row ≤ y.row

theorem pairwise_mergeSort_rowLE (entries : List Entry) :
    (entries.mergeSort rowLE).Pairwise (·.row ≤ ·.row) :=
  pairwise_mergeSort_key Entry.row entries

/-- Sorting by row is stable: the order within a row stays. -/
theorem filter_row_mergeSort (v : Nat) (entries : List Entry) :
    (entries.mergeSort rowLE).filter (·.row = v) = entries.filter (·.row = v) := by
  have level : (entries.filter (·.row = v)).Pairwise fun x y => rowLE x y = true := by
    rw [List.pairwise_filter]
    refine List.pairwise_of_forall fun x y hx hy => ?_
    simp only [decide_eq_true_eq] at hx hy
    simp [rowLE, hx, hy]
  have sub : (entries.filter (·.row = v)).Sublist (entries.mergeSort rowLE) :=
    List.sublist_mergeSort (le_key_trans Entry.row) (le_key_total Entry.row) level
      List.filter_sublist
  have both := sub.filter (·.row = v)
  rw [List.filter_filter] at both
  simp only [Bool.and_self] at both
  exact (both.eq_of_length ((List.mergeSort_perm entries rowLE).symm.filter _).length_eq).symm

theorem arcsOf_mergeSort (v : Nat) (entries : List Entry) :
    arcsOf v (entries.mergeSort rowLE) = arcsOf v entries := by
  rw [arcsOf, arcsOf, filter_row_mergeSort]

theorem filter_mergeSort_rowLE (keep : Entry → Bool) (entries : List Entry) :
    (entries.mergeSort rowLE).filter keep = (entries.filter keep).mergeSort rowLE := by
  refine eq_of_arcsOf_eq ((pairwise_mergeSort_rowLE entries).filter keep)
    (pairwise_mergeSort_rowLE _) fun v => ?_
  have swapped (xs : List Entry) :
      (xs.filter keep).filter (·.row = v) = (xs.filter (·.row = v)).filter keep := by
    simp only [List.filter_filter, Bool.and_comm]
  rw [arcsOf_mergeSort, arcsOf, arcsOf, swapped, swapped, filter_row_mergeSort]

/-- The entries of an adjacency are the stable arrangement by row of any list that has the same
rows. -/
theorem entries_eq_mergeSort {a : Adjacency} {entries : List Entry}
    (h : ∀ v, a.row v = arcsOf v entries) : a.entries = entries.mergeSort rowLE := by
  refine eq_of_arcsOf_eq (pairwise_entries a) (pairwise_mergeSort_rowLE entries) fun v => ?_
  rw [arcsOf_entries, arcsOf_mergeSort, h]

end Adjacency

end GraphRelay
