/-!
# Bisection

`partitionPoint` finds by halving where a list stops satisfying a property, provided that every
element after the first that fails it fails too.
-/
namespace GraphRelay

/-- The first position of `lo..hi` where `p` fails, or `hi`. -/
def bisect (p : Nat → Bool) (lo hi : Nat) : Nat :=
  if h : lo < hi then
    let mid := lo + (hi - lo) / 2
    if p mid then bisect p (mid + 1) hi else bisect p lo mid
  else lo
termination_by hi - lo

def partitionPoint {α : Type} (xs : List α) (p : α → Bool) : Nat :=
  bisect (fun i => xs[i]?.any p) 0 xs.length

/-- Every element is at least the one before it. -/
def isAscending : List Nat → Bool
  | a :: b :: rest => decide (a ≤ b) && isAscending (b :: rest)
  | _ => true

theorem isAscending_iff {xs : List Nat} : isAscending xs = true ↔ xs.Pairwise (· ≤ ·) := by
  fun_induction isAscending xs with
  | case1 a b rest ih =>
    simp only [Bool.and_eq_true, decide_eq_true_eq, ih, List.pairwise_cons, List.mem_cons]
    constructor
    · rintro ⟨hab, hb, hrest⟩
      refine ⟨?_, hb, hrest⟩
      rintro c (rfl | hc)
      · exact hab
      · exact Nat.le_trans hab (hb c hc)
    · rintro ⟨ha, hb, hrest⟩
      exact ⟨ha b (.inl rfl), hb, hrest⟩
  | case2 xs h =>
    match xs, h with
    | [], _ => simp
    | [a], _ => simp
    | a :: b :: rest, h => exact absurd rfl (h a b rest)

end GraphRelay
