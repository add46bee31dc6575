import GraphRelay.Proofs.Graph.Edges
import Mathlib.Order.Monotone.Basic
import Mathlib.Tactic.MkIffOfInductiveProp

/-!
# The shape of a union

A graph has the shape of a union when every edge stays in one range of vertices and has its id in
the block of that range. It can be told range by range of the destinations, or block by block of the
ids.
-/
namespace GraphRelay

/-- The range that covers `i`, when the first `n` ranges reach beyond it. -/
theorem exists_step {starts : Nat → Nat} {n i : Nat} (zero : starts 0 = 0) (h : i < starts n) :
    ∃ k < n, starts k ≤ i ∧ i < starts (k + 1) := by
  induction n with
  | zero => omega
  | succ n ih =>
    by_cases before : i < starts n
    · obtain ⟨k, hk, inside⟩ := ih before
      exact ⟨k, by omega, inside⟩
    · exact ⟨n, by omega, by omega, h⟩

theorem step_unique {starts : Nat → Nat} {i j k : Nat} (mono : Monotone starts)
    (hj : starts j ≤ i ∧ i < starts (j + 1)) (hk : starts k ≤ i ∧ i < starts (k + 1)) : j = k := by
  rcases Nat.lt_trichotomy j k with before | same | behind
  · have := mono (Nat.succ_le_of_lt before)
    simp only [Nat.succ_eq_add_one] at this
    omega
  · exact same
  · have := mono (Nat.succ_le_of_lt behind)
    simp only [Nat.succ_eq_add_one] at this
    omega

namespace Graph

/-- Where range `k` starts when vertices are cut into ranges of the given sizes. -/
def rangeStart (sizes : List Nat) (k : Nat) : Nat := (sizes.take k).sum

def InRange (sizes : List Nat) (k v : Nat) : Prop :=
  rangeStart sizes k ≤ v ∧ v < rangeStart sizes (k + 1)

instance (sizes : List Nat) (k v : Nat) : Decidable (InRange sizes k v) :=
  inferInstanceAs (Decidable (_ ∧ _))

/-- The number of edges with both endpoints in range `k`. -/
def rangeEdges (sizes : List Nat) (edges : List Edge) (k : Nat) : Nat :=
  edges.countP fun e => InRange sizes k e.src ∧ InRange sizes k e.dst

/-- Where the ids of range `k` start when each range before has one id for each of its edges. -/
def blockStart (sizes : List Nat) (edges : List Edge) (k : Nat) : Nat :=
  ((List.range k).map (rangeEdges sizes edges)).sum

/-- The number of edges whose endpoint of direction `d` lies before range `k`. -/
def edgesBefore (d : Direction) (sizes : List Nat) (edges : List Edge) (k : Nat) : Nat :=
  edges.countP fun e => (e.entryOf d).row < rangeStart sizes k

/-- Every edge has both endpoints in one range and its id in the block of that range. -/
def InBlocks (sizes : List Nat) (edges : List Edge) : Prop :=
  ∀ e ∈ edges, ∃ k < sizes.length, InRange sizes k e.src ∧ InRange sizes k e.dst ∧
    blockStart sizes edges k ≤ e.id ∧ e.id < blockStart sizes edges k + rangeEdges sizes edges k

@[mk_iff]
structure UnionShaped (g : Graph) (sizes : List Nat) : Prop where
  total : sizes.sum = g.vertexCount
  inBlocks : InBlocks sizes g.edges

instance (sizes : List Nat) (edges : List Edge) : Decidable (InBlocks sizes edges) :=
  inferInstanceAs (Decidable (∀ e ∈ edges, ∃ k < sizes.length,
    InRange sizes k e.src ∧ InRange sizes k e.dst ∧ blockStart sizes edges k ≤ e.id ∧
      e.id < blockStart sizes edges k + rangeEdges sizes edges k))

instance (g : Graph) (sizes : List Nat) : Decidable (UnionShaped g sizes) :=
  decidable_of_iff _ (unionShaped_iff g sizes).symm

section Ranges

variable {sizes : List Nat} {edges : List Edge}

@[simp] theorem rangeStart_zero (sizes : List Nat) : rangeStart sizes 0 = 0 := by
  simp [rangeStart]

@[simp] theorem rangeStart_cons_succ (size : Nat) (sizes : List Nat) (k : Nat) :
    rangeStart (size :: sizes) (k + 1) = size + rangeStart sizes k := by
  simp [rangeStart]

theorem rangeStart_length (sizes : List Nat) : rangeStart sizes sizes.length = sizes.sum := by
  simp [rangeStart]

theorem rangeStart_mono (sizes : List Nat) : Monotone (rangeStart sizes) := by
  intro j k h
  obtain ⟨i, rfl⟩ := Nat.exists_eq_add_of_le h
  rw [rangeStart, rangeStart, List.take_add, List.sum_append]
  exact Nat.le_add_right ..

theorem InRange.unique {j k v : Nat} (hj : InRange sizes j v) (hk : InRange sizes k v) : j = k :=
  step_unique (rangeStart_mono sizes) hj hk

theorem blockStart_succ (sizes : List Nat) (edges : List Edge) (k : Nat) :
    blockStart sizes edges (k + 1) = blockStart sizes edges k + rangeEdges sizes edges k := by
  simp [blockStart, List.range_succ]

theorem countP_lt_add {α : Type} (key : α → Nat) {a b : Nat} (h : a ≤ b) (xs : List α) :
    xs.countP (key · < b) = xs.countP (key · < a) + xs.countP fun x => a ≤ key x ∧ key x < b := by
  induction xs with
  | nil => rfl
  | cons x xs ih =>
    simp only [List.countP_cons, ih, decide_eq_true_eq]
    split <;> split <;> split <;> omega

/-- When edges stay in their ranges, either endpoint tells in which block they are counted. -/
theorem blockStart_eq (d : Direction)
    (together : ∀ e ∈ edges, ∃ k, InRange sizes k e.src ∧ InRange sizes k e.dst) (k : Nat) :
    blockStart sizes edges k = edgesBefore d sizes edges k := by
  induction k with
  | zero => simp [blockStart, edgesBefore]
  | succ k ih =>
    rw [blockStart_succ, ih, edgesBefore, edgesBefore,
      countP_lt_add (fun e : Edge => (e.entryOf d).row) (rangeStart_mono sizes (Nat.le_succ k)),
      rangeEdges]
    congr 1
    refine List.countP_congr fun e he => ?_
    simp only [decide_eq_true_eq]
    change _ ↔ InRange sizes k (e.entryOf d).row
    obtain ⟨j, hs, hd⟩ := together e he
    constructor
    · rintro ⟨hs, hd⟩
      cases d
      · exact hd
      · exact hs
    · intro row
      have same : j = k := by
        cases d
        · exact hd.unique row
        · exact hs.unique row
      exact ⟨same ▸ hs, same ▸ hd⟩

theorem exists_inRange {v : Nat} (h : v < sizes.sum) : ∃ k < sizes.length, InRange sizes k v :=
  exists_step (rangeStart_zero sizes) (by rwa [rangeStart_length])

theorem inBlocks_iff (d : Direction) : InBlocks sizes edges ↔
    ∀ e ∈ edges, ∃ k < sizes.length, InRange sizes k e.src ∧ InRange sizes k e.dst ∧
      edgesBefore d sizes edges k ≤ e.id ∧ e.id < edgesBefore d sizes edges (k + 1) := by
  rw [InBlocks]
  simp only [← blockStart_succ]
  constructor
  · intro blocks
    have start := blockStart_eq d fun e he =>
      (blocks e he).imp fun k h => (⟨h.2.1, h.2.2.1⟩ : InRange sizes k e.src ∧ _)
    simpa only [start] using blocks
  · intro blocks
    have start := blockStart_eq d fun e he =>
      (blocks e he).imp fun k h => (⟨h.2.1, h.2.2.1⟩ : InRange sizes k e.src ∧ _)
    simpa only [start] using blocks

theorem inBlocks_iff_of_dst (inside : ∀ e ∈ edges, e.dst < sizes.sum) : InBlocks sizes edges ↔
    ∀ k < sizes.length, ∀ e ∈ edges, InRange sizes k e.dst → InRange sizes k e.src ∧
      edgesBefore .incoming sizes edges k ≤ e.id ∧
        e.id < edgesBefore .incoming sizes edges (k + 1) := by
  rw [inBlocks_iff .incoming]
  constructor
  · intro blocks k _ e he hd
    obtain ⟨j, -, src, dst, block⟩ := blocks e he
    obtain rfl := dst.unique hd
    exact ⟨src, block⟩
  · intro ranges e he
    obtain ⟨k, hk, dst⟩ := exists_inRange (inside e he)
    obtain ⟨src, block⟩ := ranges k hk e he dst
    exact ⟨k, hk, src, dst, block⟩

theorem edgesBefore_mono (d : Direction) (sizes : List Nat) (edges : List Edge) :
    Monotone (edgesBefore d sizes edges) := by
  intro j k h
  refine List.countP_mono_left fun e _ before => ?_
  have := rangeStart_mono sizes h
  simp only [decide_eq_true_eq] at before ⊢
  omega

theorem inBlocks_iff_of_id (inside : ∀ e ∈ edges, e.src < sizes.sum)
    (numbered : ∀ e ∈ edges, e.id < edges.length) : InBlocks sizes edges ↔
    ∀ k < sizes.length, ∀ e ∈ edges, edgesBefore .outgoing sizes edges k ≤ e.id →
      e.id < edgesBefore .outgoing sizes edges (k + 1) →
        InRange sizes k e.src ∧ InRange sizes k e.dst := by
  rw [inBlocks_iff .outgoing]
  constructor
  · intro blocks k _ e he lower upper
    obtain ⟨j, -, src, dst, block⟩ := blocks e he
    obtain rfl := step_unique (edgesBefore_mono ..) block ⟨lower, upper⟩
    exact ⟨src, dst⟩
  · intro ranges e he
    have none : edgesBefore .outgoing sizes edges 0 = 0 := by
      rw [edgesBefore, rangeStart_zero, List.countP_eq_zero]
      simp
    have all : edgesBefore .outgoing sizes edges sizes.length = edges.length := by
      rw [edgesBefore, rangeStart_length, List.countP_eq_length]
      exact fun e he => decide_eq_true (inside e he)
    obtain ⟨k, hk, lower, upper⟩ := exists_step none (all ▸ numbered e he)
    obtain ⟨src, dst⟩ := ranges k hk e he lower upper
    exact ⟨k, hk, src, dst, lower, upper⟩

end Ranges

end Graph

end GraphRelay
