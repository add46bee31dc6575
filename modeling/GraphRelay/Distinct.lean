import Std.Data.HashSet.Lemmas

/-!
# Distinct members

Each member of a list once. The members met so far are looked up in a hash set, as the list may be
long.
-/
namespace GraphRelay

/-- Puts the members of a list that are not in `seen` in front of `kept`, each once, the first of
them last. -/
def collect (seen : Std.HashSet Nat) (kept : List Nat) : List Nat → List Nat
  | [] => kept
  | x :: xs =>
    if seen.contains x then collect seen kept xs else collect (seen.insert x) (x :: kept) xs

/-- Each member of a list, where it turns up first. -/
def distinct (xs : List Nat) : List Nat := (collect ∅ [] xs).reverse

theorem collect_eq (seen : Std.HashSet Nat) (kept xs : List Nat) :
    collect seen kept xs = (xs.filter fun x => !seen.contains x).eraseDups.reverse ++ kept := by
  induction xs generalizing seen kept with
  | nil => simp [collect]
  | cons x xs ih =>
    by_cases hx : seen.contains x
    · simp [collect, ih, hx]
    · have later : (xs.filter fun y => !(seen.insert x).contains y) =
          (xs.filter fun y => !seen.contains y).filter fun y => !y == x := by
        rw [List.filter_filter]
        congr 1
        funext y
        rw [Std.HashSet.contains_insert, Bool.not_or, BEq.comm (a := x)]
      rw [collect, if_neg hx, ih, later, List.filter_cons_of_pos (by simpa using hx),
        List.eraseDups_cons]
      simp

@[simp] theorem distinct_eq (xs : List Nat) : distinct xs = xs.eraseDups := by
  rw [distinct, collect_eq, List.filter_eq_self.2 (by simp), List.append_nil, List.reverse_reverse]

end GraphRelay
