import GraphRelay.Adjacency.Build
import Mathlib.Algebra.GroupWithZero.Nat

/-!
# Rows and their views

How rows, entries and compressed arrays determine each other: a row is what the entries of that row
list, and pieces cut at the offsets of rows are the rows again.
-/
namespace GraphRelay.Adjacency

section Pieces

variable {α : Type}

@[simp] theorem length_cut (lengths : List Nat) (xs : List α) :
    (cut lengths xs).length = lengths.length := by
  induction lengths generalizing xs with
  | nil => rfl
  | cons n lengths ih => simp [cut, ih]

theorem map_length_cut {lengths : List Nat} {xs : List α} (h : lengths.sum ≤ xs.length) :
    (cut lengths xs).map List.length = lengths := by
  induction lengths generalizing xs with
  | nil => rfl
  | cons n lengths ih =>
    rw [List.sum_cons] at h
    have others : lengths.sum ≤ (xs.drop n).length := by
      rw [List.length_drop]
      omega
    rw [cut, List.map_cons, ih others, List.length_take, Nat.min_eq_left (by omega)]

theorem flatten_cut {lengths : List Nat} {xs : List α} (h : lengths.sum = xs.length) :
    (cut lengths xs).flatten = xs := by
  induction lengths generalizing xs with
  | nil =>
    rw [List.sum_nil] at h
    exact (List.eq_nil_of_length_eq_zero h.symm).symm
  | cons n lengths ih =>
    rw [List.sum_cons] at h
    have others : lengths.sum = (xs.drop n).length := by
      rw [List.length_drop]
      omega
    rw [cut, List.flatten_cons, ih others, List.take_append_drop]

theorem getElem?_cut {lengths : List Nat} {xs : List α} {v n : Nat} (h : lengths[v]? = some n) :
    (cut lengths xs)[v]? = some ((xs.drop (lengths.take v).sum).take n) := by
  induction lengths generalizing xs v with
  | nil => simp at h
  | cons m lengths ih =>
    cases v with
    | zero =>
      obtain rfl : m = n := by simpa using h
      simp [cut]
    | succ v =>
      rw [List.getElem?_cons_succ] at h
      rw [cut, List.getElem?_cons_succ, ih h, List.drop_drop, List.take_succ_cons, List.sum_cons]

theorem cut_lengths (rows : List (List α)) : cut (rows.map List.length) rows.flatten = rows := by
  induction rows with
  | nil => rfl
  | cons row rows ih =>
    rw [List.map_cons, cut, List.flatten_cons, List.take_left, List.drop_left, ih]

end Pieces

@[simp] theorem length_rowLengths (first : Nat) (rest : List Nat) :
    (rowLengths (first :: rest)).length = rest.length := by
  simp [rowLengths]

theorem rowLengths_cons_cons (a b : Nat) (rest : List Nat) :
    rowLengths (a :: b :: rest) = (b - a) :: rowLengths (b :: rest) := rfl

theorem getElem?_rowLengths {offsets : List Nat} {v a b : Nat} (ha : offsets[v]? = some a)
    (hb : offsets[v + 1]? = some b) : (rowLengths offsets)[v]? = some (b - a) := by
  have zipped : (offsets.zip offsets.tail)[v]? = some (a, b) := by
    rw [List.getElem?_zip_eq_some, List.getElem?_tail]
    exact ⟨ha, hb⟩
  rw [rowLengths, List.getElem?_map, zipped]
  rfl

/-- The lengths of the rows before a row add up to the distance of its offset from the first. -/
theorem sum_take_rowLengths {offsets : List Nat} (ascending : offsets.Pairwise (· ≤ ·)) {v a b : Nat}
    (ha : offsets[0]? = some a) (hb : offsets[v]? = some b) :
    a + ((rowLengths offsets).take v).sum = b := by
  induction v generalizing offsets a with
  | zero =>
    rw [ha] at hb
    simpa using hb
  | succ v ih =>
    match offsets, ha with
    | [_], _ => simp at hb
    | first :: second :: rest, ha =>
      obtain rfl : first = a := by simpa using ha
      rw [List.getElem?_cons_succ] at hb
      have later := ih (List.pairwise_cons.1 ascending).2 (List.getElem?_cons_zero ..) hb
      have le : first ≤ second := (List.pairwise_cons.1 ascending).1 second (by simp)
      rw [rowLengths_cons_cons, List.take_succ_cons, List.sum_cons]
      omega

theorem offsetsFrom_of_lengths {rows : List (List Arc)} {first : Nat} {rest : List Nat}
    (ascending : (first :: rest).Pairwise (· ≤ ·))
    (h : rows.map List.length = rowLengths (first :: rest)) :
    offsetsFrom first rows = first :: rest := by
  induction rest generalizing rows first with
  | nil =>
    rw [List.map_eq_nil_iff.1 h, offsetsFrom]
  | cons second rest ih =>
    rw [rowLengths_cons_cons] at h
    obtain ⟨row, others, rfl, length, hothers⟩ := List.map_eq_cons_iff.1 h
    have le : first ≤ second := (List.pairwise_cons.1 ascending).1 second (by simp)
    have next : first + row.length = second := by omega
    rw [offsetsFrom, next, ih (List.pairwise_cons.1 ascending).2 hothers]

@[simp] theorem length_offsetsFrom (start : Nat) (rows : List (List Arc)) :
    (offsetsFrom start rows).length = rows.length + 1 := by
  induction rows generalizing start with
  | nil => rfl
  | cons row rows ih => rw [offsetsFrom, List.length_cons, ih, List.length_cons]

theorem head?_offsetsFrom (start : Nat) (rows : List (List Arc)) :
    (offsetsFrom start rows).head? = some start := by
  cases rows <;> rfl

theorem rowLengths_offsetsFrom (start : Nat) (rows : List (List Arc)) :
    rowLengths (offsetsFrom start rows) = rows.map List.length := by
  induction rows generalizing start with
  | nil => rfl
  | cons row rows ih =>
    have h := ih (start + row.length)
    cases rows with
    | nil => simp [offsetsFrom, rowLengths]
    | cons next rows =>
      simp only [offsetsFrom, List.map_cons] at h ⊢
      rw [rowLengths_cons_cons, h, Nat.add_sub_cancel_left]

theorem le_of_mem_offsetsFrom {start x : Nat} {rows : List (List Arc)}
    (h : x ∈ offsetsFrom start rows) : start ≤ x := by
  induction rows generalizing start with
  | nil => simp_all [offsetsFrom]
  | cons row rows ih =>
    rw [offsetsFrom, List.mem_cons] at h
    rcases h with rfl | h
    · exact Nat.le_refl _
    · have := ih h
      omega

theorem pairwise_offsetsFrom (start : Nat) (rows : List (List Arc)) :
    (offsetsFrom start rows).Pairwise (· ≤ ·) := by
  induction rows generalizing start with
  | nil => simp [offsetsFrom]
  | cons row rows ih =>
    rw [offsetsFrom, List.pairwise_cons]
    refine ⟨fun x hx => ?_, ih _⟩
    have := le_of_mem_offsetsFrom hx
    omega

theorem getLast?_offsetsFrom (start : Nat) (rows : List (List Arc)) :
    (offsetsFrom start rows).getLast? = some (start + rows.flatten.length) := by
  induction rows generalizing start with
  | nil => rfl
  | cons row rows ih =>
    rw [offsetsFrom, List.getLast?_cons, ih, Option.getD_some, List.flatten_cons,
      List.length_append, Nat.add_assoc]

end GraphRelay.Adjacency
