import GraphRelay.Proofs.Graph.Walks
import Mathlib.Algebra.BigOperators.Group.List.Basic
import Mathlib.Algebra.GroupWithZero.Nat
import Mathlib.Data.List.Sections

/-!
# How many walks there are

Walks of a given length between two vertices, counted with the edges that they take: parallel edges
make walks of their own. The count is split up by the first edge as well as by the last.
-/
namespace GraphRelay

section Sums

variable {α β : Type}

theorem sum_map_comm (f : α → β → Nat) (xs : List α) (ys : List β) :
    (xs.map fun x => (ys.map fun y => f x y).sum).sum =
      (ys.map fun y => (xs.map fun x => f x y).sum).sum := by
  induction xs with
  | nil => simp
  | cons x xs ih => simp only [List.map_cons, List.sum_cons, List.sum_map_add, ih]

theorem countP_eq_sum (p : α → Prop) [DecidablePred p] (xs : List α) :
    xs.countP (p ·) = (xs.map fun x => if p x then 1 else 0).sum := by
  induction xs with
  | nil => rfl
  | cons x xs ih => simp [List.countP_cons, ih, Nat.add_comm]

end Sums

/-- Each of the edges starts where the one before ends; the first starts at `v`, the last ends at `w`. -/
def Leads (v w : Nat) : List Edge → Prop
  | [] => v = w
  | e :: rest => e.src = v ∧ Leads e.dst w rest

instance decidableLeads (v w : Nat) : (walk : List Edge) → Decidable (Leads v w walk)
  | [] => inferInstanceAs (Decidable (v = w))
  | e :: rest =>
    have := decidableLeads e.dst w rest
    inferInstanceAs (Decidable (_ ∧ _))

/-- The number of walks of `r` edges from `v` to `w`: in how many ways `r` edges can be taken from the
list so that they lead from `v` to `w`. -/
def walkCount (edges : List Edge) (r v w : Nat) : Nat :=
  (List.replicate r edges).sections.countP (Leads v w ·)

variable {edges : List Edge} {r v w : Nat}

/-- A walk can be counted as soon as there is one. -/
theorem walkCount_pos_iff : 0 < walkCount edges r v w ↔ Walk edges r v w := by
  simp only [walkCount, List.countP_pos_iff, List.mem_sections, decide_eq_true_iff]
  constructor
  · rintro ⟨walk, taken, leads⟩
    induction r generalizing walk v with
    | zero =>
      cases taken
      obtain rfl : v = w := leads
      exact .nil v
    | succ r ih =>
      cases taken with
      | cons he rest =>
        obtain ⟨rfl, leads⟩ := leads
        exact .cons he (ih _ rest leads)
  · intro walk
    induction walk with
    | nil v => exact ⟨[], .nil, rfl⟩
    | cons he _ ih =>
      obtain ⟨walk, taken, leads⟩ := ih
      exact ⟨_ :: walk, .cons he taken, rfl, leads⟩

theorem walkCount_zero (edges : List Edge) (v w : Nat) :
    walkCount edges 0 v w = if v = w then 1 else 0 := by
  by_cases h : v = w <;> simp [walkCount, List.sections, Leads, h]

/-- Split up by the first edge. -/
theorem walkCount_succ (edges : List Edge) (r v w : Nat) : walkCount edges (r + 1) v w =
    ((edges.filter (·.src = v)).map fun e => walkCount edges r e.dst w).sum := by
  have first (walk : List Edge) :
      (edges.map fun e => e :: walk).countP (Leads v w ·) =
        ((edges.filter (·.src = v)).map fun e => if Leads e.dst w walk then 1 else 0).sum := by
    rw [← countP_eq_sum, List.countP_map, List.countP_filter]
    refine List.countP_congr fun e _ => ?_
    rw [Function.comp_apply, decide_eq_true_iff, Bool.and_eq_true, decide_eq_true_iff,
      decide_eq_true_iff]
    exact and_comm
  rw [walkCount, List.replicate_succ, List.sections, List.countP_flatMap]
  simp only [Function.comp_def, first, walkCount, countP_eq_sum]
  exact sum_map_comm ..

/-- Split up by the last edge. -/
theorem walkCount_succ_last (edges : List Edge) (r v w : Nat) : walkCount edges (r + 1) v w =
    ((edges.filter (·.dst = w)).map fun e => walkCount edges r v e.src).sum := by
  induction r generalizing v with
  | zero =>
    have starting := countP_eq_sum (fun e : Edge => e.src = v) (edges.filter (·.dst = w))
    have ending := countP_eq_sum (fun e : Edge => e.dst = w) (edges.filter (·.src = v))
    rw [List.countP_filter] at starting ending
    simp only [walkCount_succ, walkCount_zero, eq_comm (a := v), ← starting, ← ending, Bool.and_comm]
  | succ r ih =>
    calc walkCount edges (r + 2) v w
        = ((edges.filter (·.src = v)).map fun e => walkCount edges (r + 1) e.dst w).sum :=
          walkCount_succ ..
      _ = ((edges.filter (·.src = v)).map fun e =>
            ((edges.filter (·.dst = w)).map fun f => walkCount edges r e.dst f.src).sum).sum := by
          simp only [ih]
      _ = ((edges.filter (·.dst = w)).map fun f =>
            ((edges.filter (·.src = v)).map fun e => walkCount edges r e.dst f.src).sum).sum :=
          sum_map_comm ..
      _ = ((edges.filter (·.dst = w)).map fun f => walkCount edges (r + 1) v f.src).sum := by
          simp only [walkCount_succ]

end GraphRelay
