import GraphRelay.Proofs.Adjacency.Parallel
import GraphRelay.Proofs.Adjacency.Reachable
import GraphRelay.Proofs.FrozenGraph.Views

/-!
# When the cached direction shows

Queries put in between leave the answers of all later queries as they are, unless a graph that still
has one direction is sorted while parallel edges of its unsorted rows stand out of the order of their
ids. Then sorting puts them in order, but leaves a direction that was derived before as it is.
-/
namespace GraphRelay.FrozenGraph

/-- Frozen graphs over adjacencies that can be made, and what accesses make of them. -/
inductive Reachable : FrozenGraph → Prop where
  | ofAdjacency {a : Adjacency} (h : a.Reachable) (d : Direction) (multigraph : Option Bool) :
      Reachable (ofAdjacency a d multigraph)
  | after {g : FrozenGraph} (h : Reachable g) (x : Access) : Reachable (x.after g)

/-- `Interspersed xs ys` when `ys` is the queries and sorts `xs` with further queries put in. -/
inductive Interspersed : List Access → List Access → Prop where
  | nil : Interspersed [] []
  | query {xs ys : List Access} (q : Query) (h : Interspersed xs ys) :
      Interspersed (.query q :: xs) (.query q :: ys)
  | sort {xs ys : List Access} (h : Interspersed xs ys) : Interspersed (.sort :: xs) (.sort :: ys)
  | extra {xs ys : List Access} (q : Query) (h : Interspersed xs ys) :
      Interspersed xs (.query q :: ys)

/-- No query answers differently because of further queries before it. -/
def CacheUnobservable (g : FrozenGraph) : Prop :=
  ∀ xs ys q, Interspersed xs ys → Query.answer (g.run xs) q = Query.answer (g.run ys) q

theorem Reachable.describes {g : FrozenGraph} (h : g.Reachable) :
    ∃ n edges, g.Describes n edges := by
  induction h with
  | ofAdjacency h d multigraph =>
    exact ⟨_, _, rfl, h.wellFormed, fun a ha => absurd ha (by simp [FrozenGraph.ofAdjacency]), .refl _⟩
  | after _ x ih =>
    obtain ⟨n, edges, described⟩ := ih
    exact ⟨_, _, described.after x⟩

theorem Reachable.wellFormed {g : FrozenGraph} (h : g.Reachable) : g.primary.WellFormed := by
  obtain ⟨n, edges, described⟩ := h.describes
  exact described.primary

variable {g h : FrozenGraph}

/-- Answers depend on the views and on the edges found between vertices. -/
theorem answer_congr (count : g.vertexCount = h.vertexCount) (views : ∀ d, g.view d = h.view d)
    (found : ∀ s d, g.edgeIdsBetween s d = h.edgeIdsBetween s d) (q : Query) :
    q.answer g = q.answer h := by
  have rows : ∀ (α : Type) d vs (read : Nat → List Arc → α),
      g.atRows d vs read = h.atRows d vs read := by
    intro α d vs read
    rw [atRows, atRows, views, count]
  cases q with
  | successors v r => simp only [Query.answer, successors, reach, checkVertex, count, views]
  | predecessors v r => simp only [Query.answer, predecessors, reach, checkVertex, count, views]
  | hasVertex v => simp only [Query.answer, hasVertex, count]
  | edgeIds s d => simp only [Query.answer, found]
  | hasEdge s d => simp only [Query.answer, hasEdge, found]
  | edgesBetween ss ds => simp only [Query.answer, edgesBetween, found]
  | inEdges vs => simp only [Query.answer, inEdges, edgesAt, rows]
  | outEdges vs => simp only [Query.answer, outEdges, edgesAt, rows]
  | degrees d vs => simp only [Query.answer, degrees, rows]
  | edges byId => simp only [Query.answer, edgesById, edges, views]
  | view d => simp only [Query.answer, views]
  | adjacency t layout => cases layout <;> simp only [Query.answer, adjacency, views]

/-- The other direction is what would be derived now, and sorting leaves it at that. -/
structure Settled (g : FrozenGraph) : Prop where
  wellFormed : g.primary.WellFormed
  parallel : g.primary.sorted = true ∨ g.primary.ParallelAscending
  derived : ∀ a ∈ g.derived, a = g.primary.transpose

theorem Settled.view_eq (settled : g.Settled) (d : Direction) :
    g.view d = if d = g.direction then g.primary else g.primary.transpose := by
  rw [view, cached]
  split
  · rfl
  · cases hderived : g.derived with
    | none => rfl
    | some a => exact settled.derived a hderived

theorem Settled.touch (settled : g.Settled) (d : Direction) : (g.touch d).Settled := by
  rw [FrozenGraph.touch]
  split
  · exact settled
  next other =>
  refine ⟨settled.wellFormed, settled.parallel, fun a ha => ?_⟩
  rw [← Option.mem_some.1 ha, settled.view_eq, if_neg other]

theorem Settled.sort (settled : g.Settled) : g.sort.Settled := by
  refine ⟨settled.wellFormed.sort, .inl (Adjacency.sorted_sort _), fun a ha => ?_⟩
  obtain ⟨b, hb, rfl⟩ := Option.map_eq_some_iff.1 ha
  rw [settled.derived b hb, Adjacency.sort_of_sorted (Adjacency.sorted_transpose _)]
  exact ((Adjacency.transpose_sort_iff settled.wellFormed).2 settled.parallel).symm

/-- The edges from `s` to `d` in the order in which the primary direction lists them. -/
def parallelIds (g : FrozenGraph) (s d : Nat) : List Nat :=
  match g.direction with
  | .outgoing => g.primary.between s d
  | .incoming => g.primary.between d s

/-- Whichever direction is looked at, an edge is found in the order of the primary direction. -/
theorem Settled.edgeIdsBetween_eq (settled : g.Settled) (s d : Nat) :
    g.edgeIdsBetween s d = (g.checkVertex s).bind fun _ => (g.checkVertex d).map fun _ =>
      g.parallelIds s d := by
  rw [edgeIdsBetween, parallelIds]
  cases g.checkVertex s with
  | error f => rfl
  | ok _ =>
    cases g.checkVertex d with
    | error f => rfl
    | ok _ =>
      cases hdirection : g.direction with
      | outgoing =>
        rw [cached, if_pos hdirection.symm]
        exact congrArg Except.ok (Adjacency.find_eq_between settled.wellFormed s d)
      | incoming =>
        rw [cached, if_neg (by simp [hdirection]), settled.view_eq, if_pos hdirection.symm]
        cases hderived : g.derived with
        | none => exact congrArg Except.ok (Adjacency.find_eq_between settled.wellFormed d s)
        | some a =>
          have mirrored := Adjacency.find_eq_between
            (Adjacency.wellFormed_transpose g.primary) s d
          rw [Adjacency.between_transpose settled.wellFormed] at mirrored
          rw [settled.derived a hderived]
          exact congrArg Except.ok mirrored

/-- Settled graphs with the same primary direction answer alike, whatever they have derived. -/
theorem Settled.answer_eq (hg : g.Settled) (hh : h.Settled) (primary : g.primary = h.primary)
    (direction : g.direction = h.direction) (q : Query) : q.answer g = q.answer h := by
  have count : g.vertexCount = h.vertexCount := congrArg Adjacency.vertexCount primary
  refine answer_congr count (fun d => ?_) (fun s d => ?_) q
  · rw [hg.view_eq, hh.view_eq, primary, direction]
  · have check : g.checkVertex = h.checkVertex := by
      funext v
      rw [checkVertex, checkVertex, count]
    rw [hg.edgeIdsBetween_eq, hh.edgeIdsBetween_eq, check, parallelIds, parallelIds, primary,
      direction]

theorem touch_primary (g : FrozenGraph) (d : Direction) :
    (g.touch d).primary = g.primary ∧ (g.touch d).direction = g.direction := by
  rw [touch]
  split <;> exact ⟨rfl, rfl⟩

theorem Settled.query (settled : g.Settled) (q : Query) :
    (q.after g).Settled ∧ (q.after g).primary = g.primary ∧
      (q.after g).direction = g.direction := by
  refine query_induction
    (motive := fun h => h.Settled ∧ h.primary = g.primary ∧ h.direction = g.direction) q
    ⟨settled, rfl, rfl⟩ fun h d ⟨settled, primary, direction⟩ => ?_
  have same := touch_primary h d
  exact ⟨settled.touch d, same.1.trans primary, same.2.trans direction⟩

/-- Further queries between keep two settled graphs alike. -/
theorem Settled.run_alike {xs ys : List Access} (between : Interspersed xs ys) (hg : g.Settled)
    (hh : h.Settled) (primary : g.primary = h.primary) (direction : g.direction = h.direction) :
    (g.run xs).Settled ∧ (h.run ys).Settled ∧ (g.run xs).primary = (h.run ys).primary ∧
      (g.run xs).direction = (h.run ys).direction := by
  induction between generalizing g h with
  | nil => exact ⟨hg, hh, primary, direction⟩
  | query q _ ih =>
    obtain ⟨hg, gprimary, gdirection⟩ := hg.query q
    obtain ⟨hh, hprimary, hdirection⟩ := hh.query q
    exact ih hg hh (gprimary.trans (primary.trans hprimary.symm))
      (gdirection.trans (direction.trans hdirection.symm))
  | sort _ ih => exact ih hg.sort hh.sort (congrArg Adjacency.sort primary) direction
  | extra q _ ih =>
    obtain ⟨hh, hprimary, hdirection⟩ := hh.query q
    exact ih hg hh (primary.trans hprimary.symm) (direction.trans hdirection.symm)

theorem Settled.cacheUnobservable (settled : g.Settled) : g.CacheUnobservable := by
  intro xs ys q between
  obtain ⟨hx, hy, primary, direction⟩ := settled.run_alike between settled rfl rfl
  exact hx.answer_eq hy primary direction q

/-- Once both directions exist queries change nothing. -/
theorem query_of_derived (derived : g.derived.isSome = true) (q : Query) : q.after g = g := by
  obtain ⟨a, ha⟩ := Option.isSome_iff_exists.1 derived
  have still : ∀ d, g.touch d = g := by
    intro d
    rw [touch]
    split
    · rfl
    next other =>
    rw [view, cached, if_neg other, ha, Option.getD_some, ← ha]
  refine query_induction (motive := (· = g)) q rfl fun h d same => ?_
  rw [same, still]

theorem run_eq_of_derived {xs ys : List Access} (between : Interspersed xs ys)
    (derived : g.derived.isSome = true) : g.run xs = g.run ys := by
  induction between generalizing g with
  | nil => rfl
  | query q _ ih =>
    have still := query_of_derived derived q
    exact ih (by rwa [Access.after, still])
  | sort _ ih => exact ih (by simpa [Access.after, FrozenGraph.sort] using derived)
  | @extra xs ys q _ ih =>
    have still := query_of_derived derived q
    rw [ih derived, run, run, List.foldl_cons, Access.after, still]

theorem flip_ne_direction (g : FrozenGraph) : g.direction.flip ≠ g.direction := by
  cases g.direction <;> simp [Direction.flip]

theorem view_sort_of_underived (underived : g.derived = none) :
    g.sort.view g.direction.flip = g.primary.sort.transpose := by
  rw [view, cached_sort, cached, if_neg (flip_ne_direction g), underived]
  rfl

theorem view_sort_touch_of_underived (underived : g.derived = none) :
    (g.touch g.direction.flip).sort.view g.direction.flip = g.primary.transpose := by
  have derived : (g.touch g.direction.flip).cached g.direction.flip = some g.primary.transpose := by
    rw [touch, if_neg (flip_ne_direction g), cached, if_neg (flip_ne_direction g), view, cached,
      if_neg (flip_ne_direction g), underived]
    rfl
  rw [view, cached_sort, derived, Option.map_some, Option.getD_some,
    Adjacency.sort_of_sorted (Adjacency.sorted_transpose _)]

/-- The cached direction never shows exactly when it exists already, the rows ascend already, or
parallel edges stand in the order of their ids. -/
theorem cacheUnobservable_iff (reachable : g.Reachable) :
    g.CacheUnobservable ↔ g.derived.isSome = true ∨ g.primary.sorted = true ∨
      g.primary.ParallelAscending := by
  have wellFormed := reachable.wellFormed
  by_cases derived : g.derived.isSome = true
  · refine iff_of_true (fun xs ys q between => ?_) (.inl derived)
    rw [run_eq_of_derived between derived]
  have underived : g.derived = none := by simpa using derived
  rw [or_iff_right derived]
  constructor
  · intro unobservable
    rw [← Adjacency.transpose_sort_iff wellFormed]
    have answers := unobservable [.sort] [.query (.view g.direction.flip), .sort]
      (.view g.direction.flip) (.extra _ (.sort .nil))
    have views : g.sort.view g.direction.flip =
        (g.touch g.direction.flip).sort.view g.direction.flip :=
      Answer.adjacency.inj (Except.ok.inj answers)
    rwa [view_sort_of_underived underived, view_sort_touch_of_underived underived] at views
  · intro parallel
    exact Settled.cacheUnobservable ⟨wellFormed, parallel, by simp [underived]⟩

/-- Rows out of order whose parallel edges stand in the order of their ids. -/
theorem cacheUnobservable_ascending_pair :
    Reachable ⟨⟨[[⟨1, 3⟩, ⟨1, 5⟩, ⟨0, 1⟩], []], false⟩, .incoming, none, true, 64⟩ ∧
    CacheUnobservable ⟨⟨[[⟨1, 3⟩, ⟨1, 5⟩, ⟨0, 1⟩], []], false⟩, .incoming, none, true, 64⟩ := by
  have made : Adjacency.Reachable ⟨[[⟨1, 3⟩, ⟨1, 5⟩, ⟨0, 1⟩], []], false⟩ :=
    Adjacency.reachable_iff.2 ⟨by decide, by decide⟩
  have reachable := Reachable.ofAdjacency made .incoming (some true)
  exact ⟨reachable, (cacheUnobservable_iff reachable).2 (.inr (.inr (by decide)))⟩

/-- With the ids of the pair the other way round, whether the other direction was asked for before
sorting decides the order in which the pair is answered. -/
theorem cache_shows_descending_pair :
    ∃ g, Source.build none (.arrays [0, 3, 3] [1, 1, 0] [5, 3, 1] .incoming) = .ok g ∧
      Query.answer (g.run [.sort]) (.edgeIds 1 0) = .ok (.ids [3, 5]) ∧
      Query.answer (g.run [.query (.view .outgoing), .sort]) (.edgeIds 1 0) = .ok (.ids [5, 3]) ∧
      ¬ g.CacheUnobservable := by
  have built : Source.build none (.arrays [0, 3, 3] [1, 1, 0] [5, 3, 1] .incoming) =
      .ok ⟨⟨[[⟨1, 5⟩, ⟨1, 3⟩, ⟨0, 1⟩], []], false⟩, .incoming, none, true, 64⟩ := rfl
  have sorted : Adjacency.sort ⟨[[⟨1, 5⟩, ⟨1, 3⟩, ⟨0, 1⟩], []], false⟩ =
      ⟨[[⟨0, 1⟩, ⟨1, 3⟩, ⟨1, 5⟩], []], true⟩ := by
    simp [Adjacency.sort, List.mergeSort, Adjacency.arcLE]
  have late : Query.answer
      (run ⟨⟨[[⟨1, 5⟩, ⟨1, 3⟩, ⟨0, 1⟩], []], false⟩, .incoming, none, true, 64⟩ [.sort])
      (.edgeIds 1 0) = .ok (.ids [3, 5]) := by
    have wellFormed : Adjacency.WellFormed ⟨[[⟨0, 1⟩, ⟨1, 3⟩, ⟨1, 5⟩], []], true⟩ :=
      ⟨by decide, by decide⟩
    have found := (Adjacency.find_eq_between wellFormed 0 1).trans (show _ = [3, 5] from rfl)
    rw [← sorted] at found
    exact congrArg (fun ids => Except.ok (Answer.ids ids)) found
  have early : Query.answer
      (run ⟨⟨[[⟨1, 5⟩, ⟨1, 3⟩, ⟨0, 1⟩], []], false⟩, .incoming, none, true, 64⟩
        [.query (.view .outgoing), .sort]) (.edgeIds 1 0) = .ok (.ids [5, 3]) := by
    have found := Adjacency.find_eq_between
      (Adjacency.wellFormed_transpose ⟨[[⟨1, 5⟩, ⟨1, 3⟩, ⟨0, 1⟩], []], false⟩) 1 0
    exact congrArg (fun ids => Except.ok (Answer.ids ids)) found
  refine ⟨_, built, late, early, fun unobservable => ?_⟩
  have same := unobservable _ _ (.edgeIds 1 0) (.extra (.view .outgoing) (.sort .nil))
  have ids := Answer.ids.inj (Except.ok.inj (late.symm.trans (same.trans early)))
  exact absurd ids (by decide)

/-- Edges numbered by position leave no order to show. -/
theorem cacheUnobservable_of_numbered {n : Nat} {src dst : List Nat} {multigraph : Option Bool}
    (built : ofCoordinates n src dst none multigraph = .ok g) : g.CacheUnobservable := by
  obtain ⟨a, ha, rfl⟩ := ofCoordinates_eq_ok built
  obtain ⟨admissible, rfl⟩ := Adjacency.ofCoordinates_eq_ok_iff.1 ha
  have numbered : (Adjacency.listed src dst none).Pairwise (·.edge ≤ ·.edge) := by
    rw [← List.pairwise_map (f := Entry.edge) (R := (· ≤ ·)), admissible.map_edge_listed]
    exact List.pairwise_le_range
  exact Settled.cacheUnobservable
    ⟨admissible.wellFormed, .inr (Adjacency.parallelAscending_ofEntries numbered n),
      by simp [ofAdjacency]⟩

end GraphRelay.FrozenGraph
