import GraphRelay.FrozenGraph.Basic

/-!
# Looking things up in a frozen graph

Answers depend on the graph's views alone. `edgeIdsBetween` is the one look-up that asks which
adjacency exists, and prefers the outgoing one.
-/
namespace GraphRelay.FrozenGraph

def hasVertex (g : FrozenGraph) (v : Nat) : Bool := v < g.vertexCount

def checkVertex (g : FrozenGraph) (v : Nat) : Except Fault Unit :=
  if v < g.vertexCount then .ok () else .error (.vertexOutside v g.vertexCount)

/-- The neighbors of every vertex of a list, one list after the other. -/
def step (a : Adjacency) (frontier : List Nat) : List Nat :=
  frontier.flatMap fun u => (a.row u).map Arc.neighbor

/-- `radius` steps along the rows, from a list of vertices. -/
def walkEnds (a : Adjacency) : Nat → List Nat → List Nat
  | 0, frontier => frontier
  | radius + 1, frontier => walkEnds a radius (step a frontier)

/-- The ends of all walks of exactly `radius` edges from `v`, walks with a common end repeated. -/
def reach (g : FrozenGraph) (d : Direction) (v radius : Nat) : Except Fault (List Nat) :=
  match g.checkVertex v with
  | .error f => .error f
  | .ok () =>
    if radius = 0 then .error .zeroRadius
    else .ok (walkEnds (g.view d) radius [v])

def successors (g : FrozenGraph) (v radius : Nat) : Except Fault (List Nat) :=
  g.reach .outgoing v radius

def predecessors (g : FrozenGraph) (v radius : Nat) : Except Fault (List Nat) :=
  g.reach .incoming v radius

/-- The ids of all edges from `s` to `d`. -/
def edgeIdsBetween (g : FrozenGraph) (s d : Nat) : Except Fault (List Nat) :=
  match g.checkVertex s with
  | .error f => .error f
  | .ok () =>
    match g.checkVertex d with
    | .error f => .error f
    | .ok () =>
      match g.cached .outgoing with
      | some a => .ok (a.find s d)
      | none => .ok ((g.view .incoming).find d s)

def hasEdge (g : FrozenGraph) (s d : Nat) : Except Fault Bool :=
  match g.edgeIdsBetween s d with
  | .error f => .error f
  | .ok ids => .ok !ids.isEmpty

/-- Pairs sources with destinations; a single one is paired with each of the others. -/
def pairUp (srcs dsts : List Nat) : Except Fault (List (Nat × Nat)) :=
  match srcs, dsts with
  | [s], ds => .ok (ds.map fun d => (s, d))
  | ss, [d] => .ok (ss.map fun s => (s, d))
  | ss, ds =>
    if ss.length = ds.length then .ok (ss.zip ds) else .error (.unpaired ss.length ds.length)

/-- The edges between paired endpoints, parallel edges one by one. -/
def edgesBetween (g : FrozenGraph) (srcs dsts : List Nat) : Except Fault (List Edge) := do
  let pairs ← pairUp srcs dsts
  let found ← pairs.mapM fun (s, d) => do
    let ids ← g.edgeIdsBetween s d
    pure (ids.map fun id => (⟨s, d, id⟩ : Edge))
  pure found.flatten

/-- What `read` makes of the rows of the given vertices in an adjacency of direction `d`. The rows
are put into an array, as there may be many vertices. -/
def atRows {α : Type} (g : FrozenGraph) (d : Direction) (vs : List Nat)
    (read : Nat → List Arc → α) : Except Fault (List α) := do
  let rows := (g.view d).rows.toArray
  let n := g.vertexCount
  vs.mapM fun v => if v < n then .ok (read v (rows[v]?.getD [])) else .error (.vertexOutside v n)

theorem atRows_eq {α : Type} (g : FrozenGraph) (d : Direction) (vs : List Nat)
    (read : Nat → List Arc → α) :
    g.atRows d vs read =
      vs.mapM fun v => (g.checkVertex v).map fun () => read v ((g.view d).row v) := by
  simp only [atRows]
  congr 1
  funext v
  by_cases hv : v < g.vertexCount <;> simp [checkVertex, Adjacency.row, hv, Except.map]

/-- The edges in the row of `v` of direction `d`. -/
def rowEdges (d : Direction) (v : Nat) (row : List Arc) : List Edge :=
  row.map fun arc => Entry.edgeOf d ⟨v, arc.neighbor, arc.edge⟩

/-- The edges in the rows of the given vertices, row after row. -/
def edgesAt (g : FrozenGraph) (d : Direction) (vs : List Nat) : Except Fault (List Edge) :=
  (g.atRows d vs (rowEdges d)).map List.flatten

def inEdges (g : FrozenGraph) (vs : List Nat) : Except Fault (List Edge) := g.edgesAt .incoming vs

def outEdges (g : FrozenGraph) (vs : List Nat) : Except Fault (List Edge) := g.edgesAt .outgoing vs

def degrees (g : FrozenGraph) (d : Direction) (vs : List Nat) : Except Fault (List Nat) :=
  g.atRows d vs fun _ row => row.length

/-- All edges by source, in row order. -/
def edges (g : FrozenGraph) : List Edge :=
  (g.view .outgoing).entries.map (Entry.edgeOf .outgoing)

/-- All edges by id; edges of one id stay in row order. -/
def edgesById (g : FrozenGraph) : List Edge :=
  g.edges.mergeSort fun x y => x.id ≤ y.id

/-- The adjacency whose rows are sources when `transposed`, destinations otherwise. -/
def adjacency (g : FrozenGraph) (transposed : Bool) : Adjacency :=
  g.view (if transposed then .outgoing else .incoming)

end GraphRelay.FrozenGraph
