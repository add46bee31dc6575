import GraphRelay.IdMap
import GraphRelay.Proofs.Bisection
import Mathlib.Data.List.Forall2
import Std.Data.HashMap.Lemmas

/-!
# First positions of ids

A bisection of ascending parents and the index of any parents both lead to the first position of an
id, however often it occurs.
-/
namespace GraphRelay

/-- The first position of `id`, or -1 when it occurs nowhere. -/
inductive Locates (parents : List Nat) (id : Nat) : Int → Prop where
  | first {i : Nat} (here : parents[i]? = some id) (before : ∀ j < i, parents[j]? ≠ some id) :
      Locates parents id i
  | missing (absent : id ∉ parents) : Locates parents id (-1)

variable {parents : List Nat} {id : Nat}

theorem Locates.unique {p q : Int} (hp : Locates parents id p) (hq : Locates parents id q) :
    p = q := by
  cases hp with
  | @first i here before =>
    cases hq with
    | @first j here' before' =>
      have notBefore : ¬j < i := fun lt => before j lt here'
      have notBehind : ¬i < j := fun lt => before' i lt here
      omega
    | missing absent => exact absurd (List.mem_of_getElem? here) absent
  | missing absent =>
    cases hq with
    | first here => exact absurd (List.mem_of_getElem? here) absent
    | missing => rfl

section Bisection

variable (ascending : parents.Pairwise (· ≤ ·))

include ascending

theorem lt_partitionPoint_iff_lt {i x : Nat} (hx : parents[i]? = some x) :
    i < partitionPoint parents (· < id) ↔ x < id := by
  have partitioned : parents.Pairwise fun x y => decide (y < id) = true → decide (x < id) = true :=
    ascending.imp fun le lt => decide_eq_true (Nat.lt_of_le_of_lt le (of_decide_eq_true lt))
  rw [lt_partitionPoint_iff partitioned hx, decide_eq_true_iff]

/-- Behind the smaller parents comes the id itself, if it occurs at all. -/
theorem getElem?_partitionPoint (occurs : id ∈ parents) :
    parents[partitionPoint parents (· < id)]? = some id := by
  obtain ⟨i, hi⟩ := List.getElem?_of_mem occurs
  have behind : partitionPoint parents (· < id) ≤ i := by
    rw [← Nat.not_lt, lt_partitionPoint_iff_lt ascending hi]
    exact Nat.lt_irrefl id
  obtain ⟨inside, own⟩ := List.getElem?_eq_some_iff.1 hi
  have here := List.getElem?_eq_getElem (Nat.lt_of_le_of_lt behind inside)
  have least : ¬parents[partitionPoint parents (· < id)] < id := by
    rw [← lt_partitionPoint_iff_lt ascending here]
    exact Nat.lt_irrefl _
  have most : parents[partitionPoint parents (· < id)] ≤ id := by
    rcases Nat.lt_or_eq_of_le behind with before | same
    · have ordered := List.pairwise_iff_getElem.1 ascending _ i (by omega) inside before
      rwa [own] at ordered
    · simp [same, own]
  rw [here]
  congr 1
  omega

theorem locates_bisectPosition (id : Nat) : Locates parents id (bisectPosition parents id) := by
  rw [bisectPosition]
  split
  · next here =>
    refine .first here fun j lt found => ?_
    exact Nat.lt_irrefl id ((lt_partitionPoint_iff_lt ascending found).1 lt)
  · next other => exact .missing fun occurs => other (getElem?_partitionPoint ascending occurs)

end Bisection

/-- What is indexed keeps its position; of the rest the first occurrence counts. -/
theorem getElem?_foldl_insertIfNew (xs : List Nat) (start : Nat) (index : Std.HashMap Nat Nat)
    (id : Nat) :
    ((xs.zipIdx start).foldl (fun index (x, i) => index.insertIfNew x i) index)[id]? =
      index[id]?.or ((xs.idxOf? id).map (· + start)) := by
  induction xs generalizing start index with
  | nil => simp
  | cons x xs ih =>
    rw [List.zipIdx_cons, List.foldl_cons, ih, Std.HashMap.getElem?_insertIfNew, List.idxOf?_cons]
    by_cases same : x = id
    · subst same
      by_cases old : x ∈ index
      · simp [old]
      · simp [old]
    · have next : (· + start) ∘ (· + 1) = (· + (start + 1)) := by
        funext i
        exact Nat.add_right_comm i 1 start
      simp [same, Option.map_map, next]

theorem getElem?_indexParents (parents : List Nat) (id : Nat) :
    (indexParents parents)[id]? = parents.idxOf? id := by
  rw [indexParents, getElem?_foldl_insertIfNew]
  simp

theorem locates_indexedPosition (parents : List Nat) (id : Nat) :
    Locates parents id (indexedPosition (indexParents parents) id) := by
  rw [indexedPosition, getElem?_indexParents]
  cases found : parents.idxOf? id with
  | none => exact .missing (List.idxOf?_eq_none_iff.1 found)
  | some i =>
    obtain ⟨inside, here, before⟩ := List.findIdx?_eq_some_iff_getElem.1 found
    have notBefore : ∀ j < i, parents[j]? ≠ some id := by
      intro j lt
      rw [List.getElem?_eq_getElem (Nat.lt_trans lt inside)]
      simpa using before j lt
    exact .first (by simpa [List.getElem?_eq_getElem inside] using here) notBefore

theorem locates_positionsIn (parents query : List Nat) :
    List.Forall₂ (Locates parents) query (positionsIn parents query) := by
  rw [positionsIn]
  split
  · next ascending =>
    rw [List.forall₂_map_right_iff, List.forall₂_same]
    exact fun id _ => locates_bisectPosition (isAscending_iff.1 ascending) id
  · rw [List.forall₂_map_right_iff, List.forall₂_same]
    exact fun id _ => locates_indexedPosition parents id

/-- Among different parents an id has no position but its own. -/
theorem locates_range (nodup : parents.Nodup) :
    List.Forall₂ (Locates parents) parents ((List.range parents.length).map Int.ofNat) := by
  rw [List.forall₂_iff_get]
  refine ⟨by simp, fun i hi _ => ?_⟩
  have here : parents[i]? = some parents[i] := List.getElem?_eq_getElem hi
  have own : Locates parents parents[i] i := by
    refine .first here fun j lt found => ?_
    exact absurd ((List.getElem?_inj hi nodup).1 (here.trans found.symm)) (Nat.ne_of_gt lt)
  simpa using own

/-- Every query gets the first position among the parents, bisected or indexed, and parents that are
all different are numbered in order. -/
theorem positionsIn_first (parents query : List Nat) :
    List.Forall₂ (Locates parents) query (positionsIn parents query) ∧
      (parents.Pairwise (· ≤ ·) → ∀ id,
        bisectPosition parents id = indexedPosition (indexParents parents) id) ∧
      (parents.Nodup → positionsIn parents parents = (List.range parents.length).map Int.ofNat) := by
  refine ⟨locates_positionsIn parents query, fun ascending id => ?_, fun nodup => ?_⟩
  · exact (locates_bisectPosition ascending id).unique (locates_indexedPosition parents id)
  · have unique : Relator.RightUnique (Locates parents) := fun _ _ _ => Locates.unique
    exact List.right_unique_forall₂' unique (locates_positionsIn parents parents)
      (locates_range nodup)

/-- Ascending parents with a run, others with a repetition, and others that are all different. -/
theorem positionsIn_first_repeated :
    List.Forall₂ (Locates [2, 5, 5, 9]) [5, 1, 7, 9, 10] (positionsIn [2, 5, 5, 9] [5, 1, 7, 9, 10]) ∧
      bisectPosition [2, 5, 5, 9] 5 = indexedPosition (indexParents [2, 5, 5, 9]) 5 ∧
      List.Forall₂ (Locates [9, 2, 5, 2]) [2, 7] (positionsIn [9, 2, 5, 2] [2, 7]) ∧
      positionsIn [9, 2, 5] [9, 2, 5] = [0, 1, 2] := by
  obtain ⟨bisected, alike, -⟩ := positionsIn_first [2, 5, 5, 9] [5, 1, 7, 9, 10]
  obtain ⟨indexed, -, -⟩ := positionsIn_first [9, 2, 5, 2] [2, 7]
  obtain ⟨-, -, numbered⟩ := positionsIn_first [9, 2, 5] []
  exact ⟨bisected, alike (by decide) 5, indexed, numbered (by decide)⟩

end GraphRelay
