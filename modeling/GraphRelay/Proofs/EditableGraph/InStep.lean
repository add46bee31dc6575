import GraphRelay.Proofs.EditableGraph.Columns
import GraphRelay.Proofs.Traversal

/-!
# Editable graphs stay in step

What an editable graph keeps about its edges agrees with the one list of them after every sequence of
calls, refused ones included. A refused edge changes nothing, and a batch leaves what came before the
first pair that is refused.
-/
namespace GraphRelay.EditableGraph

/-- What is kept for the vertices and for single edges agrees with the list of edges. -/
structure InStep (g : EditableGraph) : Prop where
  numbered : g.edges.map Edge.id = List.range g.edgeCount
  inside : ∀ e ∈ g.edges, e.src < g.vertexCount ∧ e.dst < g.vertexCount
  successors : ∀ v, g.successors v =
    (g.checkVertex v).map fun () => (g.edges.filter (·.src = v)).map Edge.dst
  outEdgeIds : ∀ v, g.outEdgeIds v =
    (g.checkVertex v).map fun () => (g.edges.filter (·.src = v)).map Edge.id
  predecessors : ∀ v, g.predecessors v =
    (g.checkVertex v).map fun () => (g.edges.filter (·.dst = v)).map Edge.src
  inEdges : ∀ vs, g.inEdges vs =
    (vs.mapM fun v => (g.checkVertex v).map fun () => g.edges.filter (·.dst = v)).map List.flatten
  findEdge : ∀ e, g.findEdge e = match g.edges[e]? with
    | some edge => .ok (edge.src, edge.dst)
    | none => .error (.edgeOutside e g.edgeCount)
  simple : g.multigraph = false → g.edges.Pairwise fun x y => (x.src, x.dst) ≠ (y.src, y.dst)

variable {g : EditableGraph}

theorem arcsOf_edges (d : Direction) (v : Nat) (edges : List Edge) :
    Adjacency.arcsOf v (edges.map (Edge.entryOf d)) =
      (edges.filter fun e => (e.entryOf d).row = v).map fun e => (e.entryOf d).arc := by
  rw [Adjacency.arcsOf, List.filter_map, List.map_map]
  rfl

/-- A list kept for a vertex is read off the edges at that vertex. -/
theorem Reachable.kept_eq {α : Type} (h : g.Reachable) (d : Direction) (v : Nat) (use : Arc → α) :
    ((g.checkVertex v).map fun () => (g.arcsAt d v).map use) =
      (g.checkVertex v).map fun () =>
        (g.edges.filter fun e => (e.entryOf d).row = v).map fun e => use (e.entryOf d).arc := by
  by_cases hv : v < g.vertexCount
  · rw [h.arcsAt_eq d hv, arcsOf_edges, List.map_map]
    rfl
  · rw [checkVertex_of_not_lt hv]
    rfl

theorem Reachable.inEdges_eq (h : g.Reachable) (vs : List Nat) : g.inEdges vs =
    (vs.mapM fun v => (g.checkVertex v).map fun () => g.edges.filter (·.dst = v)).map
      List.flatten := by
  have one (v : Nat) : (do
      g.checkVertex v
      pure ((g.inArcs v).map fun arc => (⟨arc.neighbor, v, arc.edge⟩ : Edge))) =
        (g.checkVertex v).map fun () => g.edges.filter (·.dst = v) := by
    have back : (g.edges.filter (·.dst = v)).map (fun e => (⟨e.src, v, e.id⟩ : Edge)) =
        g.edges.filter (·.dst = v) := by
      refine (List.map_congr_left fun e he => ?_).trans (List.map_id _)
      rw [← of_decide_eq_true (List.mem_filter.1 he).2]
      rfl
    have kept := h.kept_eq .incoming v fun arc => (⟨arc.neighbor, v, arc.edge⟩ : Edge)
    calc (do
          g.checkVertex v
          pure ((g.inArcs v).map fun arc => (⟨arc.neighbor, v, arc.edge⟩ : Edge)))
        = (g.checkVertex v).map fun () =>
            (g.arcsAt .incoming v).map fun arc => (⟨arc.neighbor, v, arc.edge⟩ : Edge) := by
              cases g.checkVertex v <;> rfl
      _ = (g.checkVertex v).map fun () =>
            (g.edges.filter (·.dst = v)).map fun e => (⟨e.src, v, e.id⟩ : Edge) := kept
      _ = (g.checkVertex v).map fun () => g.edges.filter (·.dst = v) := by rw [back]
  rw [inEdges, funext one]
  cases vs.mapM (m := Except Fault) _ <;> rfl

theorem getElem?_edges (g : EditableGraph) (e : Nat) :
    g.edges[e]? = g.pairs[e]?.map fun (s, d) => ⟨s, d, e⟩ := by
  rw [edges, List.getElem?_map, List.getElem?_zipIdx]
  cases g.pairs[e]? <;> simp

theorem findEdge_eq (g : EditableGraph) (e : Nat) : g.findEdge e = match g.edges[e]? with
    | some edge => .ok (edge.src, edge.dst)
    | none => .error (.edgeOutside e g.edgeCount) := by
  rw [findEdge, getElem?_edges]
  cases g.pairs[e]? <;> rfl

theorem map_id_edges (g : EditableGraph) : g.edges.map Edge.id = List.range g.edgeCount := by
  rw [edges, List.map_map]
  exact (List.zipIdx_map_snd 0 g.pairs).trans (List.range_eq_range' ..).symm

theorem Reachable.inStep (h : g.Reachable) : g.InStep where
  numbered := g.map_id_edges
  inside e he := h.eq_listing.1.inside _ (mem_pairs_of_mem_numbered he)
  successors v := h.kept_eq .outgoing v Arc.neighbor
  outEdgeIds v := h.kept_eq .outgoing v Arc.edge
  predecessors v := h.kept_eq .incoming v Arc.neighbor
  inEdges := h.inEdges_eq
  findEdge := g.findEdge_eq
  simple none := by
    have nodup := h.eq_listing.1.simple none
    rw [← map_endpoints_numbered 0 g.pairs] at nodup
    exact List.pairwise_map.1 nodup

/-- The graph with further edges, one for each pair in this order. -/
def withPairs (g : EditableGraph) (pairs : List (Nat × Nat)) : EditableGraph :=
  listing g.vertexCount (g.pairs ++ pairs) g.multigraph

/-- Why `s -> d` cannot be added, if it cannot. -/
def refusal (g : EditableGraph) (s d : Nat) : Option Fault :=
  if g.vertexCount ≤ s then some (.vertexOutside s g.vertexCount)
  else if g.vertexCount ≤ d then some (.vertexOutside d g.vertexCount)
  else if g.multigraph = false ∧ (s, d) ∈ g.pairs then some (.parallelEdge s d)
  else none

/-- Each of the pairs can be added after those before it. -/
def Admits (g : EditableGraph) (pairs : List (Nat × Nat)) : Prop :=
  ∀ before s d after, pairs = before ++ (s, d) :: after → (g.withPairs before).refusal s d = none

/-- What comes of adding pairs in order: all are added, or those before the first that is refused. -/
inductive Batch (g : EditableGraph) :
    List (Nat × Nat) → Except Fault Unit → EditableGraph → Prop where
  | complete {pairs : List (Nat × Nat)} (admitted : g.Admits pairs) :
      Batch g pairs (.ok ()) (g.withPairs pairs)
  | cut {before after : List (Nat × Nat)} {s d : Nat} {f : Fault} (admitted : g.Admits before)
      (refused : (g.withPairs before).refusal s d = some f) :
      Batch g (before ++ (s, d) :: after) (.error f) (g.withPairs before)

theorem Reachable.withPairs_nil (h : g.Reachable) : g.withPairs [] = g := by
  rw [withPairs, List.append_nil]
  exact h.eq_listing.2.symm

theorem withPairs_withPairs (g : EditableGraph) (before more : List (Nat × Nat)) :
    (g.withPairs before).withPairs more = g.withPairs (before ++ more) := by
  rw [withPairs, withPairs, withPairs, vertexCount_listing, ← List.append_assoc]
  rfl

theorem Reachable.addEdge_eq (h : g.Reachable) (s d : Nat) :
    g.addEdge s d = match g.refusal s d with
      | some f => .error f
      | none => .ok (g.withPairs [(s, d)]) := by
  by_cases hs : s < g.vertexCount
  swap
  · rw [EditableGraph.addEdge, checkVertex_of_not_lt hs, refusal, if_pos (Nat.not_lt.1 hs)]
  by_cases hd : d < g.vertexCount
  swap
  · rw [EditableGraph.addEdge, checkVertex_of_lt hs, checkVertex_of_not_lt hd, refusal,
      if_neg (Nat.not_le.2 hs), if_pos (Nat.not_lt.1 hd)]
  have added := @addEdge_listing g.vertexCount s d g.pairs g.multigraph hs hd
  rw [← h.eq_listing.2] at added
  rw [added, refusal, if_neg (Nat.not_le.2 hs), if_neg (Nat.not_le.2 hd)]
  split <;> rfl

theorem Reachable.addEdge_of_refused (h : g.Reachable) {s d : Nat} {f : Fault}
    (refused : g.refusal s d = some f) : g.addEdge s d = .error f := by
  rw [h.addEdge_eq, refused]

theorem Reachable.addEdge_of_admitted (h : g.Reachable) {s d : Nat}
    (admitted : g.refusal s d = none) : g.addEdge s d = .ok (g.withPairs [(s, d)]) := by
  rw [h.addEdge_eq, admitted]

theorem Reachable.admits_cons (h : g.Reachable) {s d : Nat} {pairs : List (Nat × Nat)}
    (first : g.refusal s d = none) (later : (g.withPairs [(s, d)]).Admits pairs) :
    g.Admits ((s, d) :: pairs) := by
  intro before s' d' after split
  cases before with
  | nil =>
    simp only [List.nil_append, List.cons.injEq, Prod.mk.injEq] at split
    rw [h.withPairs_nil, ← split.1.1, ← split.1.2, first]
  | cons p before =>
    simp only [List.cons_append, List.cons.injEq] at split
    have here := later before s' d' after split.2
    rwa [withPairs_withPairs, split.1] at here

theorem Batch.cons {s d : Nat} {pairs : List (Nat × Nat)} {r : Except Fault Unit}
    {g' : EditableGraph} (h : g.Reachable) (first : g.refusal s d = none)
    (later : (g.withPairs [(s, d)]).Batch pairs r g') : g.Batch ((s, d) :: pairs) r g' := by
  cases later with
  | complete admitted =>
    rw [withPairs_withPairs]
    exact .complete (h.admits_cons first admitted)
  | cut admitted refused =>
    rw [withPairs_withPairs] at refused ⊢
    exact .cut (h.admits_cons first admitted) refused

/-- The pairs in front of the first that is refused are added, and no others. -/
theorem Reachable.batch_addPairs (h : g.Reachable) (pairs : List (Nat × Nat)) :
    ∃ r g', g.Batch pairs r g' ∧ report id (g.addPairs pairs) = (r, g'.columns) := by
  induction pairs generalizing g with
  | nil =>
    refine ⟨.ok (), g.withPairs [], .complete fun before s d after split => ?_, ?_⟩
    · simp at split
    · rw [h.withPairs_nil]
      rfl
  | cons p pairs ih =>
    obtain ⟨s, d⟩ := p
    rw [EditableGraph.addPairs]
    cases verdict : g.refusal s d with
    | some f =>
      have refused : (g.withPairs []).refusal s d = some f := h.withPairs_nil.symm ▸ verdict
      refine ⟨.error f, g.withPairs [], @Batch.cut g [] pairs s d f ?_ refused, ?_⟩
      · intro before s d after split
        simp at split
      · rw [h.addEdge_of_refused verdict, h.withPairs_nil]
        rfl
    | none =>
      have added := h.addEdge_of_admitted verdict
      obtain ⟨r, g', batch, outcome⟩ := ih (h.addEdge added)
      rw [added]
      exact ⟨r, g', batch.cons h verdict, outcome⟩

/-- A call on the graph at hand; a constructor replaces it. -/
inductive Call where
  | new (multigraph : Bool)
  | ofCoordinates (n : UInt64) (src dst : List Nat) (multigraph : Bool)
  | addVertices (n : UInt64)
  | addEdge (s d : Nat)
  | addEdges (srcs dsts : List Nat)

namespace Call

/-- The graph after a call, accepted or refused; none if its vertices can no longer be counted. -/
def after (g : EditableGraph) : Call → Option EditableGraph
  | new multigraph => some (.empty multigraph)
  | ofCoordinates n src dst multigraph =>
    match EditableGraph.ofCoordinates n.toNat src dst multigraph with
    | .ok made => some made
    | .error _ => some g
  | addVertices n => g.grow n.toNat
  | addEdge s d =>
    match g.addEdge s d with
    | .ok longer => some longer
    | .error _ => some g
  | addEdges srcs dsts => some (g.addEdges srcs dsts).1

/-- The columns after a call, if every place it uses is there. -/
def inPlace (c : Columns) : Call → Option Columns
  | new multigraph => some (.empty multigraph)
  | ofCoordinates n src dst multigraph =>
    match (Edit.ofCoordinates n.toNat src dst).outcome (.empty multigraph) with
    | some (.ok (), made) => some made
    | some (.error _, _) => some c
    | none => none
  | addVertices n => ((Edit.addVertices n.toNat).outcome c).map Prod.snd
  | addEdge s d => ((Edit.addEdge s d).outcome c).map Prod.snd
  | addEdges srcs dsts => ((Edit.addEdges srcs dsts).outcome c).map Prod.snd

/-- The call adds more vertices than a machine word can count together with those of the graph. -/
def Outgrows (g : EditableGraph) (call : Call) : Prop :=
  ∃ n, call = addVertices n ∧ UInt64.size ≤ g.vertexCount + n.toNat

theorem after_eq_none_iff {call : Call} : call.after g = none ↔ call.Outgrows g := by
  cases call with
  | addVertices n => simp [after, grow, Outgrows]
  | new multigraph => simp [after, Outgrows]
  | ofCoordinates n src dst multigraph =>
    rw [after]
    split <;> simp [Outgrows]
  | addEdge s d =>
    rw [after]
    split <;> simp [Outgrows]
  | addEdges srcs dsts => simp [after, Outgrows]

end Call

theorem Attained.addEdges_fst (h : g.Attained) (srcs dsts : List Nat) :
    (g.addEdges srcs dsts).1.Attained := by
  rw [EditableGraph.addEdges]
  split
  · exact h
  · exact h.addPairs rfl

theorem grow_empty (n : UInt64) (multigraph : Bool) :
    (empty multigraph).grow n.toNat = some ((empty multigraph).addVertices n.toNat) :=
  grow_eq_some_iff.2 ⟨(Nat.zero_add _).symm ▸ n.toNat_lt_size, rfl⟩

theorem attained_of_ofCoordinates {n : UInt64} {src dst : List Nat} {multigraph : Bool}
    {g : EditableGraph} (made : ofCoordinates n.toNat src dst multigraph = .ok g) : g.Attained := by
  rw [ofCoordinates] at made
  split at made
  · cases made
  · split at made
    · cases made
    · next added =>
      cases made
      exact ((Attained.empty multigraph).grow (grow_empty n multigraph)).addPairs added

theorem Attained.after {g' : EditableGraph} (h : g.Attained) {call : Call}
    (passed : call.after g = some g') : g'.Attained := by
  cases call with
  | new multigraph =>
    obtain rfl := Option.some.inj passed
    exact .empty multigraph
  | ofCoordinates n src dst multigraph =>
    rw [Call.after] at passed
    split at passed
    · next made => exact Option.some.inj passed ▸ attained_of_ofCoordinates made
    · exact Option.some.inj passed ▸ h
  | addVertices n => exact h.grow passed
  | addEdge s d =>
    rw [Call.after] at passed
    split at passed
    · next added => exact Option.some.inj passed ▸ h.addEdge added
    · exact Option.some.inj passed ▸ h
  | addEdges srcs dsts => exact Option.some.inj passed ▸ h.addEdges_fst srcs dsts

theorem Reachable.inPlace_columns (h : g.Reachable) (call : Call) :
    call.inPlace g.columns = (call.after g).map columns := by
  cases call with
  | new multigraph => rfl
  | ofCoordinates n src dst multigraph =>
    have made := outcome_ofCoordinates n.toNat_lt_size src dst multigraph
    rw [Call.inPlace, Call.after]
    cases result : EditableGraph.ofCoordinates n.toNat src dst multigraph with
    | ok g' =>
      rw [result] at made
      rw [made]
      rfl
    | error f =>
      rw [result] at made
      obtain ⟨c, refused⟩ := made
      rw [refused]
      rfl
  | addVertices n =>
    rw [Call.inPlace, Call.after, h.outcome_addVertices, Option.map_map]
    rfl
  | addEdge s d =>
    rw [Call.inPlace, Call.after, h.outcome_addEdge]
    cases g.addEdge s d <;> rfl
  | addEdges srcs dsts =>
    rw [Call.inPlace, Call.after, h.outcome_addEdges]
    obtain ⟨g', stopped⟩ := g.addEdges srcs dsts
    cases stopped <;> rfl

/-- One call after the other. -/
def run (g : EditableGraph) (calls : List Call) : Option EditableGraph := calls.foldlM Call.after g

def runInPlace (c : Columns) (calls : List Call) : Option Columns := calls.foldlM Call.inPlace c

theorem Attained.run {g' : EditableGraph} (h : g.Attained) {calls : List Call}
    (made : g.run calls = some g') : g'.Attained := by
  induction calls generalizing g with
  | nil => exact Option.some.inj made ▸ h
  | cons call calls ih =>
    obtain ⟨next, passed, made⟩ := Option.bind_eq_some_iff.1 made
    exact ih (h.after passed) made

theorem Attained.runInPlace_columns (h : g.Attained) (calls : List Call) :
    runInPlace g.columns calls = (g.run calls).map columns := by
  induction calls generalizing g with
  | nil => rfl
  | cons call calls ih =>
    rw [runInPlace, List.foldlM_cons, h.reachable.inPlace_columns, EditableGraph.run,
      List.foldlM_cons]
    cases passed : call.after g with
    | none => rfl
    | some next => exact ih (h.after passed)

/-- Calls come to nothing where one of them outgrows what the calls before it have made. -/
theorem run_eq_none_iff {calls : List Call} : g.run calls = none ↔
    ∃ before call after g', calls = before ++ call :: after ∧ g.run before = some g' ∧
      call.Outgrows g' := by
  induction calls generalizing g with
  | nil => simp [run]
  | cons call calls ih =>
    have unfold (calls : List Call) : g.run (call :: calls) = (call.after g).bind (·.run calls) := rfl
    rw [unfold]
    cases passed : call.after g with
    | none =>
      have outgrows := Call.after_eq_none_iff.1 passed
      exact iff_of_true rfl ⟨[], call, calls, g, rfl, rfl, outgrows⟩
    | some next =>
      rw [Option.bind_some, ih]
      constructor
      · rintro ⟨before, last, after, g', rfl, made, outgrows⟩
        exact ⟨call :: before, last, after, g', rfl, by rw [unfold, passed, Option.bind_some, made],
          outgrows⟩
      · rintro ⟨before, last, after, g', split, made, outgrows⟩
        cases before with
        | nil =>
          obtain ⟨rfl, rfl⟩ := List.cons.inj split
          obtain rfl := Option.some.inj made
          exact absurd (Call.after_eq_none_iff.2 outgrows) (by simp [passed])
        | cons first before =>
          obtain ⟨rfl, rfl⟩ := List.cons.inj split
          rw [unfold, passed, Option.bind_some] at made
          exact ⟨before, last, after, g', rfl, made, outgrows⟩

/-- Built anew from its edges a graph comes out as it is. -/
theorem Reachable.ofCoordinates_edges (h : g.Reachable) :
    ofCoordinates g.vertexCount (g.edges.map Edge.src) (g.edges.map Edge.dst) g.multigraph =
      .ok g := by
  have lengths : (g.edges.map Edge.src).length = (g.edges.map Edge.dst).length := by
    rw [List.length_map, List.length_map]
  have pairs : (g.edges.map Edge.src).zip (g.edges.map Edge.dst) = g.pairs :=
    (List.zip_map' ..).trans (map_endpoints_numbered 0 g.pairs)
  have added := @addPairs_listing g.vertexCount [] g.pairs g.multigraph h.eq_listing.1
  rw [ofCoordinates, if_neg (not_not.2 lengths), pairs, addVertices_empty, added]
  exact congrArg Except.ok h.eq_listing.2.symm

theorem Attained.inPlace_ofCoordinates_edges (h : g.Attained) (c : Columns) :
    (Call.ofCoordinates (.ofNat g.vertexCount) (g.edges.map Edge.src) (g.edges.map Edge.dst)
      g.multigraph).inPlace c = some g.columns := by
  obtain ⟨reachable, word⟩ := attained_iff.1 h
  have made := outcome_ofCoordinates word (g.edges.map Edge.src) (g.edges.map Edge.dst) g.multigraph
  rw [reachable.ofCoordinates_edges] at made
  rw [Call.inPlace, UInt64.toNat_ofNat_of_lt' word, made]

/-- After any sequence of calls, accepted or refused, the columns are those of one graph and answer as
it does, and whatever is kept of its edges agrees with the list of them. From there a refused edge
changes nothing, a batch leaves what came before the first pair that is refused, and the edges build
the graph anew. Only a sum of vertices that is no machine word leaves nothing behind. -/
theorem columns_stay_in_step (multigraph : Bool) (calls : List Call) :
    runInPlace (.empty multigraph) calls = ((empty multigraph).run calls).map columns ∧
    ((empty multigraph).run calls = none ↔ ∃ before call after g, calls = before ++ call :: after ∧
      (empty multigraph).run before = some g ∧ call.Outgrows g) ∧
    ∀ g, (empty multigraph).run calls = some g →
      g.Attained ∧ g.AnsweredBy g.columns ∧ g.InStep ∧
      (∀ s d, (Edit.addEdge s d).outcome g.columns = some (match g.refusal s d with
        | none => (.ok g.edgeCount, (g.withPairs [(s, d)]).columns)
        | some f => (.error f, g.columns))) ∧
      (∀ srcs dsts, srcs.length ≠ dsts.length → (Edit.addEdges srcs dsts).outcome g.columns =
        some (.error (.unpaired srcs.length dsts.length), g.columns)) ∧
      (∀ srcs dsts, srcs.length = dsts.length → ∃ r g', g.Batch (srcs.zip dsts) r g' ∧
        (Edit.addEdges srcs dsts).outcome g.columns = some (r, g'.columns)) ∧
      ofCoordinates g.vertexCount (g.edges.map Edge.src) (g.edges.map Edge.dst) g.multigraph =
        .ok g ∧
      (∀ c, (Call.ofCoordinates (.ofNat g.vertexCount) (g.edges.map Edge.src)
        (g.edges.map Edge.dst) g.multigraph).inPlace c = some g.columns) := by
  have start : (empty multigraph).Attained := .empty multigraph
  refine ⟨start.runInPlace_columns calls, run_eq_none_iff, fun g made => ?_⟩
  have attained := start.run made
  have h := attained.reachable
  refine ⟨attained, h.answeredBy, h.inStep, fun s d => ?_, fun srcs dsts lengths => ?_,
    fun srcs dsts lengths => ?_, h.ofCoordinates_edges, attained.inPlace_ofCoordinates_edges⟩
  · rw [h.outcome_addEdge, h.addEdge_eq]
    cases g.refusal s d <;> rfl
  · rw [h.outcome_addEdges, EditableGraph.addEdges, if_pos lengths]
    rfl
  · obtain ⟨r, g', batch, outcome⟩ := h.batch_addPairs (srcs.zip dsts)
    refine ⟨r, g', batch, ?_⟩
    rw [h.outcome_addEdges, EditableGraph.addEdges, if_neg (not_not.2 lengths), outcome]

/-- Refused on the way are a second edge from 0 to 1, on its own and within a batch, and an edge of a
vertex that is not there. All the vertices that a word can count are too many where some are. -/
theorem columns_stay_in_step_refused :
    runInPlace (.empty false) [.addVertices 3, .addEdge 0 1, .addEdge 0 1,
      .addEdges [1, 0, 2] [2, 1, 0], .addVertices 1, .addEdge 5 0] =
        some (listing 4 [(0, 1), (1, 2)] false).columns ∧
    (listing 4 [(0, 1), (1, 2)] false).InStep ∧
    (Edit.addEdge 0 1).outcome (listing 4 [(0, 1), (1, 2)] false).columns =
      some (.error (.parallelEdge 0 1), (listing 4 [(0, 1), (1, 2)] false).columns) ∧
    (Edit.addEdges [3] []).outcome (listing 4 [(0, 1), (1, 2)] false).columns =
      some (.error (.unpaired 1 0), (listing 4 [(0, 1), (1, 2)] false).columns) ∧
    runInPlace (.empty false) [.addVertices 2, .addEdge 0 1, .addVertices 0xffffffffffffffff] =
      none := by
  obtain ⟨columns, -, made⟩ := columns_stay_in_step false
    [.addVertices 3, .addEdge 0 1, .addEdge 0 1, .addEdges [1, 0, 2] [2, 1, 0], .addVertices 1,
      .addEdge 5 0]
  have graph : (empty false).run [.addVertices 3, .addEdge 0 1, .addEdge 0 1,
      .addEdges [1, 0, 2] [2, 1, 0], .addVertices 1, .addEdge 5 0] =
        some (listing 4 [(0, 1), (1, 2)] false) := by decide
  obtain ⟨-, -, inStep, edge, lengths, -⟩ := made _ graph
  obtain ⟨outgrown, none, -⟩ := columns_stay_in_step false
    [.addVertices 2, .addEdge 0 1, .addVertices 0xffffffffffffffff]
  rw [graph] at columns
  rw [none.2 ⟨[.addVertices 2, .addEdge 0 1], _, [], listing 2 [(0, 1)] false, rfl, by decide, _, rfl,
    by decide⟩] at outgrown
  exact ⟨columns, inStep, edge 0 1, lengths [3] [] (by decide), outgrown⟩

end GraphRelay.EditableGraph
