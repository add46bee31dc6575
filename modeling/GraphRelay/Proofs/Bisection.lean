import GraphRelay.Bisect

/-!
# Where a bisection ends

Halving finds where a list stops satisfying a property, if no element satisfies it behind one that
does not: the elements before that place are those that satisfy it.
-/
namespace GraphRelay

theorem bisect_eq {p : Nat → Bool} {lo hi k : Nat} (hlo : lo ≤ k) (hhi : k ≤ hi)
    (below : ∀ i < k, p i = true) (above : ∀ i, k ≤ i → i < hi → p i = false) :
    bisect p lo hi = k := by
  fun_induction bisect p lo hi with
  | case1 lo hi hlt mid hmid ih =>
    have inside : mid < k := by
      refine Nat.lt_of_not_le fun hk => ?_
      rw [above mid hk (by omega)] at hmid
      exact absurd hmid (by simp)
    exact ih inside hhi above
  | case2 lo hi hlt mid hmid ih =>
    have outside : k ≤ mid := Nat.le_of_not_lt fun hk => hmid (below mid hk)
    exact ih hlo outside fun i hki him => above i hki (by omega)
  | case3 lo hi hlt => omega

section Partition

variable {α : Type} {p : α → Bool} {xs : List α}

/-- A list partitioned at a property is its satisfying elements followed by the others. -/
theorem filter_append_filter_not (partitioned : xs.Pairwise fun x y => p y = true → p x = true) :
    xs.filter p ++ xs.filter (!p ·) = xs := by
  induction xs with
  | nil => rfl
  | cons x xs ih =>
    rw [List.pairwise_cons] at partitioned
    by_cases hx : p x = true
    · rw [List.filter_cons_of_pos hx, List.filter_cons_of_neg (by simp [hx]), List.cons_append,
        ih partitioned.2]
    · have none : xs.filter p = [] := by
        rw [List.filter_eq_nil_iff]
        exact fun y hy hpy => hx (partitioned.1 y hy hpy)
      have rest := ih partitioned.2
      rw [none, List.nil_append] at rest
      rw [List.filter_cons_of_neg hx, none, List.nil_append, List.filter_cons_of_pos (by simp [hx]),
        rest]

theorem partitionPoint_eq (partitioned : xs.Pairwise fun x y => p y = true → p x = true) :
    partitionPoint xs p = (xs.filter p).length := by
  have split := filter_append_filter_not partitioned
  have length : xs.length = (xs.filter p).length + (xs.filter (!p ·)).length := by
    rw [← List.length_append, split]
  apply bisect_eq (Nat.zero_le _) (by omega)
  · intro i hi
    rw [← split, List.getElem?_append_left hi, List.getElem?_eq_getElem hi, Option.any_some]
    exact (List.mem_filter.1 (List.getElem_mem hi)).2
  · intro i hki hi
    have inside : i - (xs.filter p).length < (xs.filter (!p ·)).length := by omega
    rw [← split, List.getElem?_append_right hki, List.getElem?_eq_getElem inside, Option.any_some]
    simpa using (List.mem_filter.1 (List.getElem_mem inside)).2

theorem take_partitionPoint (partitioned : xs.Pairwise fun x y => p y = true → p x = true) :
    xs.take (partitionPoint xs p) = xs.filter p := by
  have split : (xs.filter p ++ xs.filter (!p ·)).take (xs.filter p).length = xs.filter p :=
    List.take_left
  rwa [filter_append_filter_not partitioned, ← partitionPoint_eq partitioned] at split

theorem lt_partitionPoint_iff (partitioned : xs.Pairwise fun x y => p y = true → p x = true)
    {i : Nat} {x : α} (hx : xs[i]? = some x) : i < partitionPoint xs p ↔ p x = true := by
  rw [partitionPoint_eq partitioned]
  rw [← filter_append_filter_not partitioned] at hx
  by_cases front : i < (xs.filter p).length
  · rw [List.getElem?_append_left front] at hx
    exact iff_of_true front (List.mem_filter.1 (List.mem_of_getElem? hx)).2
  · rw [List.getElem?_append_right (Nat.le_of_not_lt front)] at hx
    have fails := (List.mem_filter.1 (List.mem_of_getElem? hx)).2
    exact iff_of_false front (by simpa using fails)

end Partition

end GraphRelay
