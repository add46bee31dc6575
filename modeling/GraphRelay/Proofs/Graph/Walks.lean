import GraphRelay.FrozenGraph.Basic
import Mathlib.Data.List.Basic

/-!
# Distance to a set of vertices

How many edges it takes at least to come from a vertex to one of the seeds.
-/
namespace GraphRelay

/-- `Walk edges k u v`: `k` edges, each from where the one before ends, lead from `u` to `v`. -/
inductive Walk (edges : List Edge) : Nat → Nat → Nat → Prop where
  | nil (v : Nat) : Walk edges 0 v v
  | cons {e : Edge} {k v : Nat} (he : e ∈ edges) (h : Walk edges k e.dst v) :
      Walk edges (k + 1) e.src v

/-- The distance from `v` to the nearest seed is at most `hops`. -/
def Within (edges : List Edge) (seeds : List Nat) (hops v : Nat) : Prop :=
  ∃ k ≤ hops, ∃ s ∈ seeds, Walk edges k v s

/-- The distance from `v` to the nearest seed is `hops`. -/
def AtDistance (edges : List Edge) (seeds : List Nat) (hops v : Nat) : Prop :=
  Within edges seeds hops v ∧ ∀ k < hops, ¬ Within edges seeds k v

variable {edges : List Edge} {seeds : List Nat} {hops v : Nat}

theorem Within.mono {j k : Nat} (le : j ≤ k) (h : Within edges seeds j v) :
    Within edges seeds k v := by
  obtain ⟨i, hi, walk⟩ := h
  exact ⟨i, Nat.le_trans hi le, walk⟩

@[simp] theorem within_zero : Within edges seeds 0 v ↔ v ∈ seeds := by
  constructor
  · rintro ⟨k, hk, s, hs, walk⟩
    obtain rfl := Nat.le_zero.1 hk
    cases walk
    exact hs
  · exact fun h => ⟨0, Nat.le_refl 0, v, h, .nil v⟩

/-- The first edge of a walk to a seed comes one step closer. -/
theorem within_succ : Within edges seeds (hops + 1) v ↔
    v ∈ seeds ∨ ∃ e ∈ edges, e.src = v ∧ Within edges seeds hops e.dst := by
  constructor
  · rintro ⟨k, hk, s, hs, walk⟩
    cases walk with
    | nil => exact .inl hs
    | cons he rest => exact .inr ⟨_, he, rfl, _, Nat.le_of_succ_le_succ hk, s, hs, rest⟩
  · rintro (h | ⟨e, he, rfl, k, hk, s, hs, walk⟩)
    · exact ⟨0, Nat.zero_le _, v, h, .nil v⟩
    · exact ⟨k + 1, Nat.succ_le_succ hk, s, hs, .cons he walk⟩

theorem within_of_mem (h : v ∈ seeds) : Within edges seeds hops v :=
  (within_zero.2 h).mono (Nat.zero_le hops)

theorem within_src {e : Edge} (he : e ∈ edges) (h : Within edges seeds hops e.dst) :
    Within edges seeds (hops + 1) e.src :=
  within_succ.2 (.inr ⟨e, he, rfl, h⟩)

instance decidableWithin (edges : List Edge) (seeds : List Nat) :
    (hops v : Nat) → Decidable (Within edges seeds hops v)
  | 0, _ => decidable_of_iff _ within_zero.symm
  | hops + 1, v =>
    have := decidableWithin edges seeds hops
    decidable_of_iff _ (within_succ (v := v)).symm

instance (edges : List Edge) (seeds : List Nat) (hops v : Nat) :
    Decidable (AtDistance edges seeds hops v) :=
  inferInstanceAs (Decidable (_ ∧ ∀ k < hops, ¬ Within edges seeds k v))

theorem forall_not_within_succ :
    (∀ k < hops + 1, ¬ Within edges seeds k v) ↔ ¬ Within edges seeds hops v :=
  ⟨fun far => far hops (Nat.lt_succ_self hops),
    fun far _ hk near => far (near.mono (Nat.le_of_lt_succ hk))⟩

theorem atDistance_succ : AtDistance edges seeds (hops + 1) v ↔
    Within edges seeds (hops + 1) v ∧ ¬ Within edges seeds hops v :=
  and_congr_right fun _ => forall_not_within_succ

@[simp] theorem atDistance_zero : AtDistance edges seeds 0 v ↔ v ∈ seeds := by
  simp [AtDistance]

/-- A distance from `j` on and up to `k` is `j`, or it is beyond `j` and up to `k`. -/
theorem atDistance_or_iff {j k : Nat} (le : j ≤ k) :
    AtDistance edges seeds j v ∨ (Within edges seeds k v ∧ ¬ Within edges seeds j v) ↔
      Within edges seeds k v ∧ ∀ i < j, ¬ Within edges seeds i v := by
  constructor
  · rintro (⟨near, far⟩ | ⟨near, far⟩)
    · exact ⟨near.mono le, far⟩
    · exact ⟨near, fun i hi closer => far (closer.mono (Nat.le_of_lt hi))⟩
  · rintro ⟨near, far⟩
    by_cases first : Within edges seeds j v
    · exact .inl ⟨first, far⟩
    · exact .inr ⟨near, first⟩

/-- A new vertex has an edge to a vertex that was new one step before. -/
theorem exists_edge_of_atDistance_succ (h : AtDistance edges seeds (hops + 1) v) :
    ∃ e ∈ edges, e.src = v ∧ AtDistance edges seeds hops e.dst := by
  obtain ⟨near, far⟩ := atDistance_succ.1 h
  rcases within_succ.1 near with seed | ⟨e, he, rfl, next⟩
  · exact absurd (within_of_mem seed) far
  · exact ⟨e, he, rfl, next, fun k hk closer => far ((within_src he closer).mono hk)⟩

/-- Where one more step leads to no new vertex, further steps do not either. -/
theorem within_add_iff (stable : ∀ u, Within edges seeds (hops + 1) u → Within edges seeds hops u)
    (k v : Nat) : Within edges seeds (hops + k) v ↔ Within edges seeds hops v := by
  induction k generalizing v with
  | zero => rfl
  | succ k ih =>
    rw [← Nat.add_assoc, within_succ]
    simp only [ih]
    rw [← within_succ]
    exact ⟨stable v, Within.mono (Nat.le_succ hops)⟩

theorem Within.lt {n : Nat} (h : Within edges seeds hops v) (seeds_lt : ∀ s ∈ seeds, s < n)
    (src_lt : ∀ e ∈ edges, e.src < n) : v < n := by
  obtain ⟨k, -, s, hs, walk⟩ := h
  cases walk with
  | nil => exact seeds_lt _ hs
  | cons he _ => exact src_lt _ he

/-- Both endpoints are seeds. -/
def Edge.Among (seeds : List Nat) (e : Edge) : Prop := e.src ∈ seeds ∧ e.dst ∈ seeds

instance (seeds : List Nat) (e : Edge) : Decidable (e.Among seeds) :=
  inferInstanceAs (Decidable (_ ∧ _))

/-- The edges that `hops` steps against their direction take: those among the seeds for no step. -/
def Taken (edges : List Edge) (seeds : List Nat) : Nat → Edge → Prop
  | 0, e => e.Among seeds
  | hops + 1, e => Within edges seeds hops e.dst

instance decidableTaken (edges : List Edge) (seeds : List Nat) :
    (hops : Nat) → (e : Edge) → Decidable (Taken edges seeds hops e)
  | 0, e => inferInstanceAs (Decidable (e.Among seeds))
  | hops + 1, e => inferInstanceAs (Decidable (Within edges seeds hops e.dst))

theorem Taken.within {e : Edge} (he : e ∈ edges) (h : Taken edges seeds hops e) :
    Within edges seeds hops e.src ∧ Within edges seeds hops e.dst := by
  cases hops with
  | zero => exact ⟨within_zero.2 h.1, within_zero.2 h.2⟩
  | succ hops => exact ⟨within_src he h, Within.mono (Nat.le_succ hops) h⟩

theorem taken_of_among {e : Edge} (h : e.Among seeds) : Taken edges seeds hops e := by
  cases hops with
  | zero => exact h
  | succ hops => exact within_of_mem h.2

section Congr

variable {others : List Nat} (same : ∀ v, v ∈ seeds ↔ v ∈ others)

include same

theorem within_congr : Within edges seeds hops v ↔ Within edges others hops v := by
  simp only [Within, same]

theorem among_congr {e : Edge} : e.Among seeds ↔ e.Among others := by
  simp only [Edge.Among, same]

theorem taken_congr {e : Edge} : Taken edges seeds hops e ↔ Taken edges others hops e := by
  cases hops with
  | zero => exact among_congr same
  | succ hops => exact within_congr same

end Congr

section Edges

variable {others : List Edge} (same : ∀ e, e ∈ edges ↔ e ∈ others)

include same

theorem walk_congr_edges {k u : Nat} : Walk edges k u v ↔ Walk others k u v := by
  constructor
  · intro walk
    induction walk with
    | nil v => exact .nil v
    | cons he _ ih => exact .cons ((same _).1 he) ih
  · intro walk
    induction walk with
    | nil v => exact .nil v
    | cons he _ ih => exact .cons ((same _).2 he) ih

theorem within_congr_edges : Within edges seeds hops v ↔ Within others seeds hops v := by
  simp only [Within, walk_congr_edges same]

theorem taken_congr_edges {e : Edge} : Taken edges seeds hops e ↔ Taken others seeds hops e := by
  cases hops with
  | zero => rfl
  | succ hops => exact within_congr_edges same

end Edges

end GraphRelay
