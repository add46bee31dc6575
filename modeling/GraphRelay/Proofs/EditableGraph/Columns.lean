import Mathlib.Data.List.Basic
import GraphRelay.Proofs.EditableGraph.Listing

/-!
# Editable graphs in columns

An editable graph laid out in columns that are written one at a time: for every vertex the neighbors
and, beside them, the ids of its out-edges and of its in-edges, and for every edge its source and
its destination. Each operation, write by write and with every place looked up, comes to what it does to
the graph, and what is refused has written nothing.
-/
namespace GraphRelay

/-- The edges of one vertex in one direction: neighbors and ids, side by side. -/
structure Side where
  neighbors : List Nat
  ids : List Nat
  deriving DecidableEq, Repr

namespace Side

def empty : Side := ⟨[], []⟩

def ofArcs (arcs : List Arc) : Side := ⟨arcs.map Arc.neighbor, arcs.map Arc.edge⟩

def pushNeighbor (s : Side) (v : Nat) : Side := { s with neighbors := s.neighbors ++ [v] }

def pushId (s : Side) (e : Nat) : Side := { s with ids := s.ids ++ [e] }

theorem push_ofArcs (arcs : List Arc) (v e : Nat) :
    ((ofArcs arcs).pushNeighbor v).pushId e = ofArcs (arcs ++ [⟨v, e⟩]) := by
  simp [ofArcs, pushNeighbor, pushId]

theorem zipWith_ofArcs {α : Type} (f : Nat → Nat → α) (arcs : List Arc) :
    List.zipWith f (ofArcs arcs).neighbors (ofArcs arcs).ids =
      arcs.map fun arc => f arc.neighbor arc.edge := by
  rw [ofArcs, List.zipWith_map, List.zipWith_self]

end Side

structure Columns where
  outgoing : List Side
  incoming : List Side
  sources : List Nat
  destinations : List Nat
  multigraph : Bool
  deriving DecidableEq, Repr

namespace Columns

def empty (multigraph : Bool) : Columns := ⟨[], [], [], [], multigraph⟩

def sides (c : Columns) : Direction → List Side
  | .outgoing => c.outgoing
  | .incoming => c.incoming

def withSides (c : Columns) (sides : List Side) : Direction → Columns
  | .outgoing => { c with outgoing := sides }
  | .incoming => { c with incoming := sides }

/-- Cut off or filled up with empty sides to a length. -/
def resize (total : Nat) (sides : List Side) : List Side :=
  sides.take total ++ List.replicate (total - sides.length) .empty

end Columns

/-- Something done to columns in place. It ends without any result where a place is used that is not
there or a sum outgrows its machine word; a fault leaves behind what was written before it. -/
abbrev Edit (α : Type) := ExceptT Fault (StateT Columns Option) α

namespace Edit

def side (d : Direction) (v : Nat) : Edit Side := do
  let c ← get
  (c.sides d)[v]?

def alter (d : Direction) (v : Nat) (f : Side → Side) : Edit Unit := do
  let own ← side d v
  modify fun c => c.withSides ((c.sides d).set v (f own)) d

def checkVertex (v : Nat) : Edit Unit := do
  let c ← get
  if v < c.outgoing.length then pure () else throw (.vertexOutside v c.outgoing.length)

/-- A sum of machine words, which is to be one as well. -/
def sum (a b : Nat) : Edit Nat := if a + b < UInt64.size then some (a + b) else none

def addVertices (n : Nat) : Edit Unit := do
  let total ← sum (← get).outgoing.length n
  modify fun c => { c with outgoing := Columns.resize total c.outgoing }
  modify fun c => { c with incoming := Columns.resize total c.incoming }

/-- A simple graph looks for the destination among the neighbors of the source. -/
def checkParallel (s d : Nat) : Edit Unit := do
  let c ← get
  if c.multigraph then pure ()
  else
    let own ← side .outgoing s
    if d ∈ own.neighbors then throw (.parallelEdge s d) else pure ()

/-- Writes the edge `s -> d` in all its places and answers its id. -/
def pushEdge (s d : Nat) : Edit Nat := do
  let id := (← get).sources.length
  alter .outgoing s (·.pushNeighbor d)
  alter .outgoing s (·.pushId id)
  alter .incoming d (·.pushNeighbor s)
  alter .incoming d (·.pushId id)
  modify fun c => { c with sources := c.sources ++ [s] }
  modify fun c => { c with destinations := c.destinations ++ [d] }
  pure id

def addEdge (s d : Nat) : Edit Nat := do
  checkVertex s
  checkVertex d
  checkParallel s d
  pushEdge s d

/-- Adds edges until one is refused; `word` says how its fault is passed on. -/
def addPairs (word : Fault → Fault) : List (Nat × Nat) → Edit Unit
  | [] => pure ()
  | (s, d) :: rest => do
    let _ ← ExceptT.adapt word (addEdge s d)
    addPairs word rest

def addEdges (srcs dsts : List Nat) : Edit Unit :=
  if srcs.length ≠ dsts.length then throw (.unpaired srcs.length dsts.length)
  else addPairs id (srcs.zip dsts)

/-- Fills empty columns with a graph on `n` vertices. -/
def ofCoordinates (n : Nat) (src dst : List Nat) : Edit Unit :=
  if src.length ≠ dst.length then throw (.endpointCounts src.length dst.length)
  else do
    addVertices n
    addPairs .rejectedEdge (src.zip dst)

/-- One of the lists that are kept for a vertex. -/
def listed (d : Direction) (part : Side → List Nat) (v : Nat) : Edit (List Nat) := do
  checkVertex v
  let own ← side d v
  pure (part own)

def successors : Nat → Edit (List Nat) := listed .outgoing Side.neighbors

def predecessors : Nat → Edit (List Nat) := listed .incoming Side.neighbors

def outEdgeIds : Nat → Edit (List Nat) := listed .outgoing Side.ids

def findEdge (e : Nat) : Edit (Nat × Nat) := do
  let c ← get
  match c.sources[e]?, c.destinations[e]? with
  | some s, some d => pure (s, d)
  | _, _ => throw (.edgeOutside e c.sources.length)

def inEdges (vs : List Nat) : Edit (List Edge) := do
  let found ← vs.mapM fun v => do
    checkVertex v
    let own ← side .incoming v
    pure (List.zipWith (fun s e => (⟨s, v, e⟩ : Edge)) own.neighbors own.ids)
  pure found.flatten

def edges : Edit (List Edge) := do
  let c ← get
  let pairs := c.sources.zip c.destinations
  pure (List.zipWith (fun (s, d) e => ⟨s, d, e⟩) pairs (List.range c.sources.length))

/-- What becomes of the columns `c`, and with what answer. -/
def outcome {α : Type} (x : Edit α) (c : Columns) : Option (Except Fault α × Columns) := x.run.run c

section Outcome

variable {α β : Type} {x : Edit α} {c c' : Columns} {a : α} {f : Fault}

theorem outcome_bind_ok {g : α → Edit β} (h : x.outcome c = some (.ok a, c')) :
    (x >>= g).outcome c = (g a).outcome c' := by
  simp only [outcome, ExceptT.run_bind, StateT.run_bind] at h ⊢
  rw [h]
  rfl

theorem outcome_bind_error {g : α → Edit β} (h : x.outcome c = some (.error f, c')) :
    (x >>= g).outcome c = some (.error f, c') := by
  simp only [outcome, ExceptT.run_bind, StateT.run_bind] at h ⊢
  rw [h]
  rfl

theorem outcome_bind_get (g : Columns → Edit β) (c : Columns) :
    (get >>= g).outcome c = (g c).outcome c := rfl

theorem outcome_adapt (word : Fault → Fault) (x : Edit α) (c : Columns) :
    outcome (ExceptT.adapt word x) c = (x.outcome c).map fun (r, c') => (r.mapError word, c') := by
  change (ExceptT.mk (Except.mapError word <$> x.run)).run.run c = _
  rw [ExceptT.run_mk, StateT.run_map]
  rfl

theorem outcome_side {d : Direction} {v : Nat} {own : Side} (h : (c.sides d)[v]? = some own) :
    (side d v).outcome c = some (.ok own, c) := by
  rw [side, outcome_bind_get, h]
  rfl

theorem outcome_alter {d : Direction} {v : Nat} (g : Side → Side) (h : v < (c.sides d).length) :
    (alter d v g).outcome c = some (.ok (), c.withSides ((c.sides d).modify v g) d) := by
  have own : (c.sides d)[v]? = some (c.sides d)[v] := List.getElem?_eq_getElem h
  rw [alter, outcome_bind_ok (outcome_side own), List.modify_eq_set_getElem?, own]
  rfl

theorem outcome_checkVertex (v : Nat) (c : Columns) : (checkVertex v).outcome c =
    some (if v < c.outgoing.length then .ok () else .error (.vertexOutside v c.outgoing.length), c) := by
  rw [checkVertex, outcome_bind_get]
  split <;> rfl

theorem outcome_addVertices (n : Nat) (c : Columns) : (addVertices n).outcome c =
    if c.outgoing.length + n < UInt64.size then
      some (.ok (), { c with
        outgoing := Columns.resize (c.outgoing.length + n) c.outgoing
        incoming := Columns.resize (c.outgoing.length + n) c.incoming })
    else none := by
  rw [addVertices, outcome_bind_get, sum]
  split <;> rfl

theorem outcome_pushEdge {s d : Nat} (hs : s < c.outgoing.length) (hd : d < c.incoming.length) :
    (pushEdge s d).outcome c = some (.ok c.sources.length,
      { c with
        outgoing := c.outgoing.modify s fun own => (own.pushNeighbor d).pushId c.sources.length
        incoming := c.incoming.modify d fun own => (own.pushNeighbor s).pushId c.sources.length
        sources := c.sources ++ [s]
        destinations := c.destinations ++ [d] }) := by
  have kept (f : Side → Side) (sides : List Side) (v : Nat) :
      (sides.modify v f).length = sides.length := List.length_modify f sides v
  rw [pushEdge, outcome_bind_get, outcome_bind_ok (outcome_alter _ hs),
    outcome_bind_ok (outcome_alter _ ((kept ..).symm ▸ hs)),
    outcome_bind_ok (outcome_alter _ hd),
    outcome_bind_ok (outcome_alter _ ((kept ..).symm ▸ hd))]
  simp only [Columns.sides, Columns.withSides, List.modify_modify_eq]
  rfl

/-- Reading alone goes through a list as its answers do. -/
theorem outcome_mapM {read : α → Edit β} {answer : α → Except Fault β}
    (h : ∀ x, (read x).outcome c = some (answer x, c)) (xs : List α) :
    (xs.mapM read).outcome c = some (xs.mapM answer, c) := by
  induction xs with
  | nil => rfl
  | cons x xs ih =>
    rw [List.mapM_cons, List.mapM_cons]
    have here := h x
    cases hx : answer x with
    | error f =>
      rw [hx] at here
      exact outcome_bind_error here
    | ok y =>
      rw [hx] at here
      rw [outcome_bind_ok here]
      cases hxs : xs.mapM answer with
      | error f =>
        rw [hxs] at ih
        exact outcome_bind_error ih
      | ok ys =>
        rw [hxs] at ih
        rw [outcome_bind_ok ih]
        rfl

end Outcome

end Edit

namespace EditableGraph

/-- The graph laid out in columns. -/
def columns (g : EditableGraph) : Columns :=
  ⟨g.outgoing.map Side.ofArcs, g.incoming.map Side.ofArcs, g.pairs.map Prod.fst,
    g.pairs.map Prod.snd, g.multigraph⟩

/-- The columns answer as the graph does, and stay as they are. -/
structure AnsweredBy (g : EditableGraph) (c : Columns) : Prop where
  successors : ∀ v, (Edit.successors v).outcome c = some (g.successors v, c)
  predecessors : ∀ v, (Edit.predecessors v).outcome c = some (g.predecessors v, c)
  outEdgeIds : ∀ v, (Edit.outEdgeIds v).outcome c = some (g.outEdgeIds v, c)
  inEdges : ∀ vs, (Edit.inEdges vs).outcome c = some (g.inEdges vs, c)
  findEdge : ∀ e, (Edit.findEdge e).outcome c = some (g.findEdge e, c)
  edges : Edit.edges.outcome c = some (.ok g.edges, c)

variable {g : EditableGraph}

theorem outcome_checkVertex_columns (g : EditableGraph) (v : Nat) :
    (Edit.checkVertex v).outcome g.columns = some (g.checkVertex v, g.columns) := by
  have count : g.columns.outgoing.length = g.vertexCount := List.length_map _
  rw [Edit.outcome_checkVertex, count, checkVertex]

theorem Reachable.length_incoming (h : g.Reachable) : g.incoming.length = g.vertexCount := by
  rw [congrArg EditableGraph.incoming h.eq_listing.2]
  exact length_rowsOf

theorem Reachable.side_columns (h : g.Reachable) (d : Direction) {v : Nat}
    (hv : v < g.vertexCount) :
    (g.columns.sides d)[v]? = some (Side.ofArcs (g.arcsAt d v)) := by
  cases d with
  | outgoing =>
    have here : g.outgoing[v]? = some (g.outArcs v) := by
      rw [outArcs, List.getElem?_eq_getElem hv, Option.getD_some]
    exact (List.getElem?_map ..).trans (congrArg (Option.map Side.ofArcs) here)
  | incoming =>
    have here : g.incoming[v]? = some (g.inArcs v) := by
      rw [inArcs, List.getElem?_eq_getElem (h.length_incoming ▸ hv), Option.getD_some]
    exact (List.getElem?_map ..).trans (congrArg (Option.map Side.ofArcs) here)

/-- A vertex is checked, then one of its sides is read. -/
theorem Reachable.outcome_read {α : Type} (h : g.Reachable) (d : Direction) (v : Nat)
    (use : Side → α) :
    Edit.outcome (do Edit.checkVertex v; let own ← Edit.side d v; pure (use own)) g.columns =
      some ((g.checkVertex v).map fun () => use (Side.ofArcs (g.arcsAt d v)), g.columns) := by
  have checked := outcome_checkVertex_columns g v
  by_cases hv : v < g.vertexCount
  · rw [checkVertex_of_lt hv] at checked ⊢
    have own := Edit.outcome_side (h.side_columns d hv)
    rw [Edit.outcome_bind_ok checked, Edit.outcome_bind_ok own]
    rfl
  · rw [checkVertex_of_not_lt hv] at checked ⊢
    exact Edit.outcome_bind_error checked

theorem Reachable.outcome_inEdges (h : g.Reachable) (vs : List Nat) :
    (Edit.inEdges vs).outcome g.columns = some (g.inEdges vs, g.columns) := by
  have read (v : Nat) : Edit.outcome (do
      Edit.checkVertex v
      let own ← Edit.side .incoming v
      pure (List.zipWith (fun s e => (⟨s, v, e⟩ : Edge)) own.neighbors own.ids)) g.columns =
        some (do
          g.checkVertex v
          pure ((g.inArcs v).map fun arc => (⟨arc.neighbor, v, arc.edge⟩ : Edge)), g.columns) := by
    rw [h.outcome_read, Side.zipWith_ofArcs]
    cases g.checkVertex v <;> rfl
  have all := Edit.outcome_mapM read vs
  rw [inEdges]
  cases found : vs.mapM (m := Except Fault) _ with
  | error f => exact Edit.outcome_bind_error (all.trans (by rw [found]))
  | ok lists => exact Edit.outcome_bind_ok (all.trans (by rw [found]))

theorem outcome_findEdge (g : EditableGraph) (e : Nat) :
    (Edit.findEdge e).outcome g.columns = some (g.findEdge e, g.columns) := by
  have count : g.columns.sources.length = g.edgeCount := List.length_map _
  have source : g.columns.sources[e]? = g.pairs[e]?.map Prod.fst := List.getElem?_map ..
  have destination : g.columns.destinations[e]? = g.pairs[e]?.map Prod.snd := List.getElem?_map ..
  rw [Edit.findEdge, Edit.outcome_bind_get, source, destination,
    count, findEdge]
  cases g.pairs[e]? <;> rfl

theorem outcome_edges (g : EditableGraph) :
    Edit.edges.outcome g.columns = some (.ok g.edges, g.columns) := by
  have count : g.columns.sources.length = g.pairs.length := List.length_map _
  have pairs : g.columns.sources.zip g.columns.destinations = g.pairs :=
    (List.zip_map' ..).trans (List.map_id _)
  rw [Edit.edges, Edit.outcome_bind_get, pairs, count, edges,
    List.zipIdx_eq_zip_range', ← List.range_eq_range', List.zip, List.map_zipWith]
  rfl

theorem Reachable.answeredBy (h : g.Reachable) : g.AnsweredBy g.columns where
  successors v := h.outcome_read .outgoing v Side.neighbors
  predecessors v := h.outcome_read .incoming v Side.neighbors
  outEdgeIds v := h.outcome_read .outgoing v Side.ids
  inEdges := h.outcome_inEdges
  findEdge := outcome_findEdge g
  edges := outcome_edges g

theorem resize_map_ofArcs (rows : List (List Arc)) (n : Nat) :
    Columns.resize (rows.length + n) (rows.map Side.ofArcs) =
      (rows ++ List.replicate n []).map Side.ofArcs := by
  rw [Columns.resize, List.length_map, Nat.add_sub_cancel_left,
    List.take_of_length_le (by simp), List.map_append, List.map_replicate]
  rfl

theorem Reachable.outcome_addVertices (h : g.Reachable) (n : Nat) :
    (Edit.addVertices n).outcome g.columns = (g.grow n).map fun g' => (.ok (), g'.columns) := by
  have outgoing := resize_map_ofArcs g.outgoing n
  have incoming := resize_map_ofArcs g.incoming n
  have count : g.columns.outgoing.length = g.vertexCount := List.length_map _
  rw [h.length_incoming] at incoming
  rw [Edit.outcome_addVertices, grow, count]
  split
  · simp only [columns, vertexCount, outgoing]
    exact incoming ▸ rfl
  · rfl

theorem map_modify_ofArcs (rows : List (List Arc)) (v w e : Nat) :
    (rows.map Side.ofArcs).modify v (fun own => (own.pushNeighbor w).pushId e) =
      (rows.modify v (· ++ [⟨w, e⟩])).map Side.ofArcs := by
  refine List.ext_getElem? fun u => ?_
  rw [List.getElem?_modify, List.getElem?_map, List.getElem?_map, List.getElem?_modify]
  cases rows[u]? with
  | none => rfl
  | some arcs => by_cases hv : v = u <;> simp [hv, Side.push_ofArcs]

theorem outcome_pushEdge_columns {s d : Nat} (hs : s < g.outgoing.length)
    (hd : d < g.incoming.length) :
    (Edit.pushEdge s d).outcome g.columns = some (.ok g.edgeCount, (g.pushEdge s d).columns) := by
  have outgoing := map_modify_ofArcs g.outgoing s d g.pairs.length
  have incoming := map_modify_ofArcs g.incoming d s g.pairs.length
  rw [Edit.outcome_pushEdge (by simpa [columns] using hs) (by simpa [columns] using hd)]
  simp only [columns, pushEdge, edgeCount, List.length_map, List.map_append, List.map_cons,
    List.map_nil, outgoing, incoming]

theorem mem_neighbors_ofArcs (s d : Nat) :
    d ∈ (Side.ofArcs (g.outArcs s)).neighbors ↔ g.hasEdge s d = true := by
  rw [hasEdge, List.any_eq_true, Side.ofArcs, List.mem_map]
  simp only [decide_eq_true_eq]

theorem Reachable.outcome_checkParallel (h : g.Reachable) {s d : Nat} (hs : s < g.vertexCount) :
    (Edit.checkParallel s d).outcome g.columns =
      some (if !g.multigraph && g.hasEdge s d then .error (.parallelEdge s d) else .ok (),
        g.columns) := by
  have own : (g.columns.sides .outgoing)[s]? = some (Side.ofArcs (g.outArcs s)) :=
    h.side_columns .outgoing hs
  have flag : g.columns.multigraph = g.multigraph := rfl
  rw [Edit.checkParallel, Edit.outcome_bind_get, flag]
  cases g.multigraph with
  | true => rfl
  | false =>
    rw [if_neg (by simp), Edit.outcome_bind_ok (Edit.outcome_side own)]
    by_cases listed : g.hasEdge s d = true
    · rw [if_pos (mem_neighbors_ofArcs s d |>.2 listed), listed]
      rfl
    · rw [if_neg (mt (mem_neighbors_ofArcs s d).1 listed), Bool.eq_false_iff.2 listed]
      rfl

/-- What is refused has written nothing. -/
theorem Reachable.outcome_addEdge (h : g.Reachable) (s d : Nat) :
    (Edit.addEdge s d).outcome g.columns = some (match g.addEdge s d with
      | .ok g' => (.ok g.edgeCount, g'.columns)
      | .error f => (.error f, g.columns)) := by
  have source := outcome_checkVertex_columns g s
  have destination := outcome_checkVertex_columns g d
  rw [Edit.addEdge, EditableGraph.addEdge]
  by_cases hs : s < g.vertexCount
  swap
  · rw [checkVertex_of_not_lt hs] at source ⊢
    exact Edit.outcome_bind_error source
  rw [checkVertex_of_lt hs] at source ⊢
  rw [Edit.outcome_bind_ok source]
  by_cases hd : d < g.vertexCount
  swap
  · rw [checkVertex_of_not_lt hd] at destination ⊢
    exact Edit.outcome_bind_error destination
  rw [checkVertex_of_lt hd] at destination ⊢
  rw [Edit.outcome_bind_ok destination]
  have parallel := h.outcome_checkParallel (d := d) hs
  split at parallel
  · next refused =>
    rw [if_pos refused]
    exact Edit.outcome_bind_error parallel
  · next free =>
    rw [if_neg free, Edit.outcome_bind_ok parallel]
    exact outcome_pushEdge_columns hs (h.length_incoming ▸ hd)

/-- Where a graph and the reason to stop are left, in columns. -/
def report (word : Fault → Fault) : EditableGraph × Option Fault → Except Fault Unit × Columns
  | (g, none) => (.ok (), g.columns)
  | (g, some f) => (.error (word f), g.columns)

theorem Reachable.outcome_addPairs (h : g.Reachable) (word : Fault → Fault)
    (pairs : List (Nat × Nat)) :
    (Edit.addPairs word pairs).outcome g.columns = some (report word (g.addPairs pairs)) := by
  induction pairs generalizing g with
  | nil => rfl
  | cons p pairs ih =>
    obtain ⟨s, d⟩ := p
    have here := Edit.outcome_adapt word (Edit.addEdge s d) g.columns
    rw [h.outcome_addEdge] at here
    rw [Edit.addPairs, EditableGraph.addPairs]
    cases added : g.addEdge s d with
    | error f =>
      rw [added] at here
      exact Edit.outcome_bind_error here
    | ok g' =>
      rw [added] at here
      rw [Edit.outcome_bind_ok here]
      exact ih (h.addEdge added)

theorem Reachable.outcome_addEdges (h : g.Reachable) (srcs dsts : List Nat) :
    (Edit.addEdges srcs dsts).outcome g.columns = some (report id (g.addEdges srcs dsts)) := by
  rw [Edit.addEdges, addEdges]
  split
  · rfl
  · exact h.outcome_addPairs id _

/-- Columns that start out empty are filled with the graph, unless it is refused. -/
theorem outcome_ofCoordinates {n : Nat} (word : n < UInt64.size) (src dst : List Nat)
    (multigraph : Bool) :
    match ofCoordinates n src dst multigraph with
    | .ok g => (Edit.ofCoordinates n src dst).outcome (.empty multigraph) = some (.ok (), g.columns)
    | .error f => ∃ c, (Edit.ofCoordinates n src dst).outcome (.empty multigraph) =
        some (.error f, c) := by
  have start : (EditableGraph.empty multigraph).Reachable := .empty multigraph
  have grown : (EditableGraph.empty multigraph).grow n =
      some ((EditableGraph.empty multigraph).addVertices n) :=
    grow_eq_some_iff.2 ⟨(Nat.zero_add n).symm ▸ word, rfl⟩
  have counted := start.outcome_addVertices n
  rw [grown] at counted
  rw [Edit.ofCoordinates, ofCoordinates]
  by_cases lengths : src.length ≠ dst.length
  · rw [if_pos lengths, if_pos lengths]
    exact ⟨_, rfl⟩
  · rw [if_neg lengths, if_neg lengths]
    have filled : Edit.outcome (do Edit.addVertices n; Edit.addPairs .rejectedEdge (src.zip dst))
        (.empty multigraph) = _ :=
      (Edit.outcome_bind_ok counted).trans
        ((start.addVertices n).outcome_addPairs .rejectedEdge (src.zip dst))
    cases added : ((EditableGraph.empty multigraph).addVertices n).addPairs (src.zip dst) with
    | mk g stopped =>
      rw [added] at filled
      cases stopped with
      | none => exact filled
      | some f => exact ⟨_, filled⟩

end EditableGraph

end GraphRelay
