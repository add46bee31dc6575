import GraphRelay.Proofs.Adjacency.Indexing
import GraphRelay.Proofs.Adjacency.Reachable
import GraphRelay.Proofs.FrozenGraph.Views
import Mathlib.Data.List.Nodup
import Mathlib.Data.Prod.Basic
import Std.Data.HashSet.Lemmas

/-!
# When parallel edges are found

A scan of the rows with a set of the neighbors seen so far finds a repeat exactly when two entries have
row and neighbor in common. That depends on nothing but the endpoints of the edges, so it comes to the
same for both directions, for rows in any order and for whatever order a graph was given its edges in.
-/
namespace GraphRelay

/-- Two different positions of a list agree under `key`. -/
def AgreeTwice {α β : Type} (key : α → β) (xs : List α) : Prop :=
  ∃ (i j : Nat) (x y : α), i ≠ j ∧ xs[i]? = some x ∧ xs[j]? = some y ∧ key x = key y

theorem agreeTwice_iff {α β : Type} {key : α → β} {xs : List α} :
    AgreeTwice key xs ↔ ¬(xs.map key).Nodup := by
  simp only [List.nodup_iff_getElem?_ne_getElem?, List.getElem?_map, List.length_map, ne_eq,
    not_forall, not_not, exists_prop]
  constructor
  · rintro ⟨i, j, x, y, apart, hx, hy, same⟩
    obtain before | behind := Nat.lt_or_gt_of_ne apart
    · exact ⟨i, j, before, (List.getElem?_eq_some_iff.1 hy).1, by simp [hx, hy, same]⟩
    · exact ⟨j, i, behind, (List.getElem?_eq_some_iff.1 hx).1, by simp [hx, hy, same]⟩
  · rintro ⟨i, j, before, inside, same⟩
    have hi := List.getElem?_eq_getElem (Nat.lt_trans before inside)
    have hj := List.getElem?_eq_getElem inside
    rw [hi, hj] at same
    exact ⟨i, j, _, _, Nat.ne_of_lt before, hi, hj, Option.some.inj same⟩

/-- What the keys are decides, wherever they are listed. -/
theorem agreeTwice_perm {α β γ : Type} {key : α → γ} {other : β → γ} {xs : List α} {ys : List β}
    (same : (xs.map key).Perm (ys.map other)) : AgreeTwice key xs ↔ AgreeTwice other ys := by
  rw [agreeTwice_iff, agreeTwice_iff, same.nodup_iff]

/-- Whether a member of the list is in `seen` or stands in the list twice. -/
def turnsUpAgain (seen : Std.HashSet Nat) : List Nat → Bool
  | [] => false
  | x :: xs => seen.contains x || turnsUpAgain (seen.insert x) xs

theorem turnsUpAgain_eq_false_iff {seen : Std.HashSet Nat} {xs : List Nat} :
    turnsUpAgain seen xs = false ↔ xs.Nodup ∧ ∀ x ∈ xs, x ∉ seen := by
  induction xs generalizing seen with
  | nil => simp [turnsUpAgain]
  | cons x xs ih =>
    have rest : (∀ y ∈ xs, y ∉ seen.insert x) ↔ x ∉ xs ∧ ∀ y ∈ xs, y ∉ seen := by
      simp only [Std.HashSet.mem_insert, beq_iff_eq, not_or, forall_and]
      refine and_congr_left fun _ => ?_
      exact ⟨fun others hx => others x hx rfl, fun absent y hy same => absent (same ▸ hy)⟩
    rw [turnsUpAgain, Bool.or_eq_false_iff, ih, rest, List.nodup_cons, List.forall_mem_cons,
      Std.HashSet.contains_eq_false_iff_not_mem]
    tauto

/-- Row and neighbor of an entry. -/
def Entry.cell (e : Entry) : Nat × Nat := (e.row, e.col)

namespace Adjacency

variable {a : Adjacency}

/-- The scan of the arrays row by row, the set emptied before each. -/
def Arrays.scanRepeat? (s : Arrays) : Option Bool :=
  (List.range s.vertexCount).anyM fun v => do
    let (cols, _) ← s.row? v
    pure (turnsUpAgain ∅ cols)

theorem scanRepeat?_arrays (a : Adjacency) : a.arrays.scanRepeat? = some a.hasRepeat := by
  have found (cols : List Nat) : turnsUpAgain ∅ cols = !decide cols.Nodup := by
    have none : turnsUpAgain ∅ cols = false ↔ cols.Nodup := by
      rw [turnsUpAgain_eq_false_iff]
      simp
    by_cases nodup : cols.Nodup
    · rw [none.2 nodup, decide_eq_true nodup, Bool.not_true]
    · rw [Bool.of_not_eq_false (mt none.1 nodup), decide_eq_false nodup, Bool.not_false]
  rw [← hasRepeat?_arrays, Arrays.scanRepeat?, Arrays.hasRepeat?]
  simp only [found]

/-- A row lists its cells in a row of their own, so that two that are equal have one row. -/
theorem nodup_cells_iff : (a.entries.map Entry.cell).Nodup ↔
    ∀ v < a.vertexCount, ((a.row v).map Arc.neighbor).Nodup := by
  have cells (v : Nat) : ((a.row v).map fun arc => (⟨v, arc.neighbor, arc.edge⟩ : Entry)).map
      Entry.cell = ((a.row v).map Arc.neighbor).map (Prod.mk v) := by
    rw [List.map_map, List.map_map]
    rfl
  have apart : (List.range a.vertexCount).Pairwise (Function.onFun List.Disjoint fun v =>
      ((a.row v).map Arc.neighbor).map (Prod.mk v)) := by
    refine List.nodup_range.imp fun {u v} other => ?_
    rintro cell hu hv
    obtain ⟨x, -, rfl⟩ := List.mem_map.1 hu
    obtain ⟨y, -, same⟩ := List.mem_map.1 hv
    exact other (congrArg Prod.fst same).symm
  rw [entries_eq_flatMap, List.map_flatMap]
  simp only [cells]
  rw [List.nodup_flatMap, and_iff_left apart]
  simp only [List.mem_range, List.nodup_map_iff (Prod.mk_right_injective _)]

theorem hasRepeat_iff_agreeTwice : a.hasRepeat = true ↔ AgreeTwice Entry.cell a.entries := by
  rw [agreeTwice_iff, nodup_cells_iff, hasRepeat, rows_eq_map_row, List.any_map, List.any_eq_true]
  simp

theorem hasRepeat_sort (a : Adjacency) : a.sort.hasRepeat = a.hasRepeat := by
  have same := (sameRows_sort a).entries_perm.map Entry.cell
  rw [Bool.eq_iff_iff, hasRepeat_iff_agreeTwice, hasRepeat_iff_agreeTwice, agreeTwice_perm same]

/-- The endpoints of the edges are the cells, either way round. -/
theorem hasRepeat_iff_endpoints (d : Direction) (a : Adjacency) :
    a.hasRepeat = true ↔ AgreeTwice Edge.endpoints (a.edgesOf d) := by
  rw [hasRepeat_iff_agreeTwice, agreeTwice_iff, agreeTwice_iff, edgesOf, List.map_map]
  cases d with
  | outgoing => rfl
  | incoming =>
    have turned : Edge.endpoints ∘ Entry.edgeOf .incoming = Prod.swap ∘ Entry.cell := rfl
    rw [turned, ← List.map_map, List.nodup_map_iff Prod.swap_injective]

theorem WellFormed.hasRepeat_transpose (h : a.WellFormed) : a.transpose.hasRepeat = a.hasRepeat := by
  have same : (a.transpose.edgesOf .incoming).Perm (a.edgesOf .outgoing) :=
    (mirrors_transpose h).edgesOf_perm .outgoing
  rw [Bool.eq_iff_iff, hasRepeat_iff_endpoints .incoming, hasRepeat_iff_endpoints .outgoing,
    agreeTwice_perm (same.map Edge.endpoints)]

end Adjacency

namespace FrozenGraph

/-- A graph that is not told finds out by itself. -/
theorem Source.multigraph_of_build {source : Source} {g : FrozenGraph}
    (built : source.build none = .ok g) : g.multigraph = g.primary.hasRepeat := by
  cases source with
  | coordinates n src dst ids =>
    obtain ⟨a, -, rfl⟩ := ofCoordinates_eq_ok built
    rfl
  | arrays offsets neighbors edgeIds d =>
    obtain ⟨a, -, rfl⟩ := ofArrays_eq_ok built
    rfl

theorem Source.multigraph_iff {source : Source} {g : FrozenGraph}
    (built : source.build none = .ok g) :
    g.multigraph = true ↔ AgreeTwice Edge.endpoints source.edges := by
  obtain ⟨-, -, same⟩ := build_primary built
  rw [multigraph_of_build built, Adjacency.hasRepeat_iff_endpoints g.direction,
    agreeTwice_perm (same.map Edge.endpoints)]

/-- The scan finds a repeat exactly when two positions hold one row and one neighbor, and finds the same
in the other direction and in sorted rows. A graph that is not told whether it has parallel edges knows
exactly whether two of the edges it was given share their endpoints, so that graphs given edges of the
same endpoints agree, from whichever direction and in whichever order. -/
theorem multigraph_inferred :
    (∀ a, Adjacency.Reachable a → a.arrays.scanRepeat? = some a.hasRepeat ∧
      (a.hasRepeat = true ↔ AgreeTwice Entry.cell a.entries) ∧
      a.transpose.hasRepeat = a.hasRepeat ∧ a.sort.hasRepeat = a.hasRepeat) ∧
    ∀ source g, Source.build none source = .ok g →
      (g.multigraph = true ↔ AgreeTwice Edge.endpoints source.edges) ∧
      ∀ other g', Source.build none other = .ok g' →
        (source.edges.map Edge.endpoints).Perm (other.edges.map Edge.endpoints) →
        g'.multigraph = g.multigraph := by
  refine ⟨fun a reachable => ?_, fun source g built => ⟨Source.multigraph_iff built, ?_⟩⟩
  · exact ⟨Adjacency.scanRepeat?_arrays a, Adjacency.hasRepeat_iff_agreeTwice,
      reachable.wellFormed.hasRepeat_transpose, a.hasRepeat_sort⟩
  · intro other g' built' same
    rw [Bool.eq_iff_iff, Source.multigraph_iff built, Source.multigraph_iff built',
      agreeTwice_perm same]

/-- Two edges from 2 to 0 with a loop between them, given by their sources and by their destinations in
an order of their own; and two edges that go there and back. -/
theorem multigraph_inferred_twice :
    (∃ g other, Source.build none (.coordinates 3 [2, 0, 2] [0, 0, 0] none) = .ok g ∧
      Source.build none (.arrays [0, 3, 3, 3] [0, 2, 2] [6, 5, 7] .incoming) = .ok other ∧
      g.multigraph = true ∧ other.multigraph = true) ∧
    ¬AgreeTwice Entry.cell (Adjacency.mk [[⟨1, 0⟩], [⟨0, 1⟩]] true).transpose.entries := by
  have built : Source.build none (.coordinates 3 [2, 0, 2] [0, 0, 0] none) =
      .ok ⟨⟨[[⟨0, 1⟩], [], [⟨0, 0⟩, ⟨0, 2⟩]], true⟩, .outgoing, none, true, 64⟩ := rfl
  have turned : Source.build none (.arrays [0, 3, 3, 3] [0, 2, 2] [6, 5, 7] .incoming) =
      .ok ⟨⟨[[⟨0, 6⟩, ⟨2, 5⟩, ⟨2, 7⟩], [], []], true⟩, .incoming, none, true, 64⟩ := rfl
  have reachable : Adjacency.Reachable ⟨[[⟨1, 0⟩], [⟨0, 1⟩]], true⟩ :=
    Adjacency.reachable_iff.2 ⟨by decide, by decide⟩
  refine ⟨⟨_, _, built, turned, rfl, ?_⟩, fun twice => ?_⟩
  · exact (multigraph_inferred.2 _ _ built).2 _ _ turned (by decide)
  · have repeated := (multigraph_inferred.1 _ reachable.transpose).2.1.2 twice
    rw [(multigraph_inferred.1 _ reachable).2.2.1] at repeated
    exact absurd repeated (by decide)

end FrozenGraph

end GraphRelay
