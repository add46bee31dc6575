import GraphRelay.Proofs.Adjacency.Transpose
import GraphRelay.Proofs.FrozenGraph.Source
import GraphRelay.Proofs.Traversal

/-!
# Both directions of a frozen graph

Whatever is asked of a frozen graph and whatever happens to its cache, both of its adjacencies stand
for the edges that it was built from, flipped once for each reversal. A direction that exists is
changed by sorting alone, and by sorting only within rows.
-/
namespace GraphRelay

namespace Edge

def flip (e : Edge) : Edge := ⟨e.dst, e.src, e.id⟩

/-- Edges by id, as `FrozenGraph.edgesById` lists them. -/
def idLE (x y : Edge) : Bool := x.id ≤ y.id

theorem pairwise_mergeSort_idLE {edges : List Edge} (distinct : (edges.map Edge.id).Nodup) :
    (edges.mergeSort idLE).Pairwise (·.id < ·.id) := by
  have ascending : (edges.mergeSort idLE).Pairwise (·.id ≤ ·.id) :=
    pairwise_mergeSort_key Edge.id edges
  have apart : (edges.mergeSort idLE).Pairwise (·.id ≠ ·.id) := by
    rw [← List.pairwise_map (f := Edge.id) (R := (· ≠ ·))]
    exact ((List.mergeSort_perm edges idLE).map Edge.id).nodup_iff.2 distinct
  exact (ascending.and apart).imp fun h => Nat.lt_of_le_of_ne h.1 h.2

/-- Edges with ids of their own have one order by id, however they were listed. -/
theorem mergeSort_idLE_eq {xs ys : List Edge} (same : xs.Perm ys)
    (distinct : (ys.map Edge.id).Nodup) : xs.mergeSort idLE = ys.mergeSort idLE := by
  have hx := pairwise_mergeSort_idLE ((same.map Edge.id).nodup_iff.2 distinct)
  have hy := pairwise_mergeSort_idLE distinct
  refine List.Perm.eq_of_pairwise ?_ hx hy ?_
  · intro x y _ _ hxy hyx
    omega
  · exact (List.mergeSort_perm xs idLE).trans (same.trans (List.mergeSort_perm ys idLE).symm)

end Edge

theorem Entry.edgeOf_swap (d : Direction) (e : Entry) : e.swap.edgeOf d.flip = e.edgeOf d := by
  cases d <;> rfl

theorem Entry.edgeOf_flip (d : Direction) (e : Entry) : e.edgeOf d.flip = (e.edgeOf d).flip := by
  cases d <;> rfl

theorem Direction.eq_flip_of_ne {c d : Direction} (h : c ≠ d) : c = d.flip := by
  cases c <;> cases d <;> simp_all [flip]

namespace Adjacency

/-- The entries of `a` are those of `b` with row and neighbor swapped. -/
structure Mirrors (a b : Adjacency) : Prop where
  wellFormed : a.WellFormed
  vertexCount : a.vertexCount = b.vertexCount
  swapped : (a.entries.map Entry.swap).Perm b.entries

variable {a b : Adjacency}

theorem mirrors_transpose (h : a.WellFormed) : a.transpose.Mirrors a := by
  refine ⟨wellFormed_transpose a, vertexCount_transpose a, ?_⟩
  have back : (a.entries.map Entry.swap).map Entry.swap = a.entries := by
    rw [List.map_map]
    exact List.map_id _
  have swapped := (entries_transpose_perm h).map Entry.swap
  rwa [back] at swapped

theorem Mirrors.sort (h : a.Mirrors b) : a.sort.Mirrors b.sort := by
  refine ⟨h.wellFormed.sort, ?_, ?_⟩
  · rw [vertexCount_sort, vertexCount_sort, h.vertexCount]
  · have before := (sameRows_sort a).entries_perm.symm.map Entry.swap
    exact before.trans (h.swapped.trans (sameRows_sort b).entries_perm)

theorem Mirrors.edgesOf_perm (h : a.Mirrors b) (d : Direction) :
    (a.edgesOf d.flip).Perm (b.edgesOf d) := by
  have edges := h.swapped.map (Entry.edgeOf d)
  rw [List.map_map] at edges
  have meaning : Entry.edgeOf d ∘ Entry.swap = Entry.edgeOf d.flip := by
    funext e
    exact (Entry.edgeOf_swap d e.swap).symm
  rwa [meaning] at edges

theorem edgesOf_flip (d : Direction) (a : Adjacency) :
    a.edgesOf d.flip = (a.edgesOf d).map Edge.flip := by
  rw [edgesOf, edgesOf, List.map_map]
  exact List.map_congr_left fun e _ => Entry.edgeOf_flip d e

theorem SameRows.edgesOf_perm (h : SameRows a b) (d : Direction) :
    (a.edgesOf d).Perm (b.edgesOf d) := h.entries_perm.map _

end Adjacency

namespace FrozenGraph

/-- What every access preserves: both directions that exist stand for the same `edges` on `n`
vertices. -/
structure Describes (g : FrozenGraph) (n : Nat) (edges : List Edge) : Prop where
  vertexCount : g.vertexCount = n
  primary : g.primary.WellFormed
  derived : ∀ a ∈ g.derived, a.Mirrors g.primary
  edges : (g.primary.edgesOf g.direction).Perm edges

variable {g : FrozenGraph} {n : Nat} {edges : List Edge}

/-- A view shows the edges of its direction, whether it exists already or not. -/
theorem Describes.view (h : g.Describes n edges) (d : Direction) :
    (g.view d).WellFormed ∧ (g.view d).vertexCount = n ∧ ((g.view d).edgesOf d).Perm edges := by
  have mirrored : ∀ a : Adjacency, a.Mirrors g.primary → d ≠ g.direction →
      a.WellFormed ∧ a.vertexCount = n ∧ (a.edgesOf d).Perm edges := by
    intro a ha hd
    refine ⟨ha.wellFormed, ha.vertexCount.trans h.vertexCount, ?_⟩
    rw [Direction.eq_flip_of_ne hd]
    exact (ha.edgesOf_perm g.direction).trans h.edges
  rw [FrozenGraph.view, cached]
  split
  · next own =>
    rw [own]
    exact ⟨h.primary, h.vertexCount, h.edges⟩
  next other =>
  cases hderived : g.derived with
  | none => exact mirrored _ (Adjacency.mirrors_transpose h.primary) other
  | some a => exact mirrored a (h.derived a hderived) other

theorem Describes.touch (h : g.Describes n edges) (d : Direction) :
    (g.touch d).Describes n edges := by
  rw [FrozenGraph.touch]
  split
  · exact h
  next other =>
  refine ⟨h.vertexCount, h.primary, fun a ha => ?_, h.edges⟩
  rw [← Option.mem_some.1 ha, FrozenGraph.view, cached, if_neg other]
  cases hderived : g.derived with
  | none => exact Adjacency.mirrors_transpose h.primary
  | some b => exact h.derived b hderived

theorem Describes.sort (h : g.Describes n edges) : g.sort.Describes n edges := by
  refine ⟨?_, h.primary.sort, fun a ha => ?_, ?_⟩
  · exact (Adjacency.vertexCount_sort g.primary).trans h.vertexCount
  · obtain ⟨b, hb, rfl⟩ := Option.map_eq_some_iff.1 ha
    exact (h.derived b hb).sort
  · exact ((Adjacency.sameRows_sort g.primary).edgesOf_perm _).symm.trans h.edges

theorem Describes.reverse (h : g.Describes n edges) :
    g.reverse.Describes n (edges.map Edge.flip) := by
  refine ⟨h.vertexCount, h.primary, h.derived, ?_⟩
  rw [FrozenGraph.reverse, Adjacency.edgesOf_flip]
  exact h.edges.map Edge.flip

/-- What reading a direction preserves a query preserves. -/
theorem query_induction {motive : FrozenGraph → Prop} (q : Query) (start : motive g)
    (touch : ∀ g d, motive g → motive (g.touch d)) : motive (q.after g) := by
  rw [Query.after]
  generalize q.reads g = read
  induction read generalizing g with
  | nil => exact start
  | cons d read ih => exact ih (touch g d start)

/-- Only the width of the ids can change. -/
theorem after_withIdBits (g : FrozenGraph) (bits : Nat) :
    ∃ width, (Access.withIdBits bits).after g = { g with idBits := width } := by
  rw [Access.after, withIdBits]
  split
  · exact ⟨g.idBits, rfl⟩
  split
  · exact ⟨g.idBits, rfl⟩
  · exact ⟨bits, rfl⟩

/-- What an access makes of the edges that a graph stands for. -/
def Access.edgesAfter (edges : List Edge) : Access → List Edge
  | .reverse => edges.map Edge.flip
  | _ => edges

theorem Describes.after (h : g.Describes n edges) (x : Access) :
    (x.after g).Describes n (x.edgesAfter edges) := by
  cases x with
  | query q =>
    exact query_induction (motive := (·.Describes n edges)) q h fun _ d h => h.touch d
  | sort => exact h.sort
  | clone => exact h
  | reverse => exact h.reverse
  | withIdBits bits =>
    obtain ⟨width, after⟩ := after_withIdBits g bits
    rw [after]
    exact ⟨h.vertexCount, h.primary, h.derived, h.edges⟩

theorem Describes.run (h : g.Describes n edges) (xs : List Access) :
    (g.run xs).Describes n (xs.foldl Access.edgesAfter edges) := by
  induction xs generalizing g edges with
  | nil => exact h
  | cons x xs ih => exact ih (h.after x)

/-- The direction that adjacencies of direction `d` have after an access. -/
def Access.directionAfter (d : Direction) : Access → Direction
  | .reverse => d.flip
  | _ => d

theorem cached_touch {c d : Direction} {a : Adjacency} (h : g.cached d = some a) :
    (g.touch c).cached d = some a := by
  rw [touch]
  split
  · exact h
  next other =>
  rw [cached] at h ⊢
  split at h
  · next own => rwa [if_pos own]
  · next derived =>
    have same : c = d := by
      rw [Direction.eq_flip_of_ne other, Direction.eq_flip_of_ne derived]
    subst same
    rw [if_neg derived, view, cached, if_neg derived, h]
    rfl

/-- What exists already stays as it is, unless it is sorted. -/
theorem cached_after {d : Direction} {a : Adjacency} (x : Access) (notSort : x ≠ .sort)
    (h : g.cached d = some a) : (x.after g).cached (x.directionAfter d) = some a := by
  cases x with
  | query q =>
    exact query_induction (motive := (·.cached d = some a)) q h fun _ _ h => cached_touch h
  | sort => exact absurd rfl notSort
  | clone => exact h
  | reverse =>
    have own : d.flip = g.direction.flip ↔ d = g.direction := by
      constructor
      · intro same
        rw [← Direction.flip_flip d, same, Direction.flip_flip]
      · exact congrArg Direction.flip
    rw [cached] at h
    rw [Access.after, Access.directionAfter, reverse, cached]
    simpa only [own] using h
  | withIdBits bits =>
    obtain ⟨width, after⟩ := after_withIdBits g bits
    rw [after]
    exact h

theorem cached_sort (d : Direction) : g.sort.cached d = (g.cached d).map Adjacency.sort := by
  rw [cached, cached, sort]
  split <;> rfl

theorem edgesOf_eq_flatMap (d : Direction) (a : Adjacency) :
    a.edgesOf d = (List.range a.vertexCount).flatMap fun v => rowEdges d v (a.row v) := by
  rw [Adjacency.edgesOf, Adjacency.entries_eq_flatMap, List.map_flatMap]
  simp only [List.map_map]
  rfl

/-- Asked for all vertices in turn, a direction lists its edges in row order. -/
theorem Describes.edgesAt_range (h : g.Describes n edges) (d : Direction) :
    g.edgesAt d (List.range g.vertexCount) = .ok ((g.view d).edgesOf d) := by
  have rows : ∀ v ∈ List.range g.vertexCount,
      (g.checkVertex v).map (fun () => rowEdges d v ((g.view d).row v)) =
        .ok (rowEdges d v ((g.view d).row v)) := by
    intro v hv
    rw [checkVertex, if_pos (List.mem_range.1 hv)]
    rfl
  have count : (g.view d).vertexCount = g.vertexCount := (h.view d).2.1.trans h.vertexCount.symm
  rw [edgesAt, atRows_eq, mapM_ok rows, edgesOf_eq_flatMap, count]
  rfl

/-- What can be observed of a graph that stands for `edges`. -/
structure Shows (g : FrozenGraph) (edges : List Edge) : Prop where
  swapped : ∀ a ∈ g.derived, (a.entries.map Entry.swap).Perm g.primary.entries
  primary : (g.primary.edgesOf g.direction).Perm edges
  kept : ∀ (x : Access) d a, x ≠ .sort → g.cached d = some a →
    (x.after g).cached (x.directionAfter d) = some a
  sorted : ∀ d a, g.cached d = some a → ∃ b, g.sort.cached d = some b ∧ a.SameRows b
  inEdges : ∃ es, g.inEdges (List.range g.vertexCount) = .ok es ∧ es.Perm edges
  outEdges : ∃ es, g.outEdges (List.range g.vertexCount) = .ok es ∧ es.Perm edges
  allEdges : g.edges.Perm edges

theorem Describes.shows (h : g.Describes n edges) : g.Shows edges where
  swapped a ha := (h.derived a ha).swapped
  primary := h.edges
  kept x _ _ := cached_after x
  sorted d a ha := by
    rw [cached_sort, ha]
    exact ⟨a.sort, rfl, Adjacency.sameRows_sort a⟩
  inEdges := ⟨_, h.edgesAt_range .incoming, (h.view .incoming).2.2⟩
  outEdges := ⟨_, h.edgesAt_range .outgoing, (h.view .outgoing).2.2⟩
  allEdges := (h.view .outgoing).2.2

theorem foldl_edgesAfter {xs : List Access} (h : .reverse ∉ xs) :
    xs.foldl Access.edgesAfter edges = edges := by
  induction xs with
  | nil => rfl
  | cons x xs ih =>
    rw [List.mem_cons, not_or] at h
    have same : x.edgesAfter edges = edges := by
      cases x with
      | reverse => exact absurd rfl h.1
      | query | sort | clone | withIdBits => rfl
    rw [List.foldl_cons, same, ih h.2]

/-- Both directions describe the given edges in every state of every run, flipped once for each
reversal; and while nothing is reversed, edges with ids of their own have one list by id. -/
theorem run_shows_source {source : Source} {multigraph : Option Bool} {g : FrozenGraph}
    (built : source.build multigraph = .ok g) (xs : List Access) :
    (g.run xs).vertexCount = g.vertexCount ∧
    (g.run xs).Shows (xs.foldl Access.edgesAfter source.edges) ∧
    ((source.edges.map Edge.id).Nodup → .reverse ∉ xs →
      (g.run xs).edgesById = source.edges.mergeSort Edge.idLE ∧
      (g.run xs).edgesById.Pairwise (·.id < ·.id)) := by
  obtain ⟨underived, wellFormed, edges⟩ := Source.build_primary built
  have start : g.Describes g.vertexCount source.edges :=
    ⟨rfl, wellFormed, by simp [underived], edges⟩
  have shows := (start.run xs).shows
  refine ⟨(start.run xs).vertexCount, shows, fun distinct forward => ?_⟩
  have same := shows.allEdges
  rw [foldl_edgesAfter forward] at same
  have listed : (g.run xs).edgesById = source.edges.mergeSort Edge.idLE :=
    Edge.mergeSort_idLE_eq same distinct
  rw [listed]
  exact ⟨rfl, Edge.pairwise_mergeSort_idLE distinct⟩

/-- A loop and two parallel edges, given by destination and sorted when both directions exist. -/
theorem run_shows_parallel_edges :
    ∃ g, Source.build none (.arrays [0, 3, 3] [1, 1, 0] [5, 3, 1] .incoming) = .ok g ∧
      (g.run [.query (.view .outgoing), .sort, .clone]).Shows [⟨1, 0, 5⟩, ⟨1, 0, 3⟩, ⟨0, 0, 1⟩] ∧
      (g.run [.query (.view .outgoing), .sort, .clone]).edgesById =
        [⟨0, 0, 1⟩, ⟨1, 0, 3⟩, ⟨1, 0, 5⟩] := by
  have built : Source.build none (.arrays [0, 3, 3] [1, 1, 0] [5, 3, 1] .incoming) =
      .ok ⟨⟨[[⟨1, 5⟩, ⟨1, 3⟩, ⟨0, 1⟩], []], false⟩, .incoming, none, true, 64⟩ := rfl
  obtain ⟨-, shows, byId⟩ := run_shows_source built [.query (.view .outgoing), .sort, .clone]
  refine ⟨_, built, shows, (byId (by decide) (by decide)).1.trans ?_⟩
  simp [Source.edges, repeatRuns, List.range_succ, Adjacency.zipEntries, Entry.edgeOf,
    List.mergeSort, Edge.idLE]

end FrozenGraph

end GraphRelay
