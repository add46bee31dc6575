import GraphRelay.EdgeList
import GraphRelay.Proofs.FrozenGraph.Cache
import GraphRelay.Proofs.FrozenGraph.ParentEdges
import GraphRelay.Proofs.Traversal

/-!
# Loaded edge lists

An edge list that was loaded has room for every vertex that its rows name. So it makes a graph, whose
edges by id are the rows in order, unless the counters for its vertices outnumber the machine words.
-/
namespace GraphRelay.EdgeList

/-- Every row names vertices of the list. -/
def Inside (l : EdgeList) : Prop := ∀ r ∈ l.rows, r.1 < l.vertexCount ∧ r.2 < l.vertexCount

variable {csv : Csv.Codec} {source : EdgeListSource} {requested : Option Nat} {rows : List (Nat × Nat)} {l : EdgeList}
  {n : Nat}

/-- One more than the largest id in the rows, or 0 without any. -/
def needed (rows : List (Nat × Nat)) : Nat :=
  (rows.map Prod.fst ++ rows.map Prod.snd).max?.elim 0 (· + 1)

theorem elim_max?_le_iff {vs : List Nat} : vs.max?.elim 0 (· + 1) ≤ n ↔ ∀ v ∈ vs, v < n := by
  cases largest : vs.max? with
  | none =>
    rw [List.max?_eq_none_iff.1 largest]
    simp
  | some top =>
    obtain ⟨occurs, most⟩ := List.max?_eq_some_iff.1 largest
    exact ⟨fun le v hv => Nat.lt_of_le_of_lt (most v hv) le, fun below => below top occurs⟩

theorem needed_le_iff : needed rows ≤ n ↔ ∀ r ∈ rows, r.1 < n ∧ r.2 < n := by
  rw [needed, elim_max?_le_iff, List.forall_mem_append, List.forall_mem_map, List.forall_mem_map]
  simp only [forall_and]

theorem neededVertices_eq_ok_iff :
    neededVertices rows = .ok n ↔ needed rows < UInt64.size ∧ needed rows = n := by
  rw [neededVertices]
  generalize listed : rows.flatMap _ = ids
  have least (k : Nat) : ids.max?.elim 0 (· + 1) ≤ k ↔ needed rows ≤ k := by
    rw [needed_le_iff, elim_max?_le_iff, ← listed]
    simp only [List.forall_mem_flatMap, List.forall_mem_cons, List.not_mem_nil, false_implies,
      implies_true, and_true]
  rw [← Nat.le_antisymm ((least _).2 (Nat.le_refl _)) ((least _).1 (Nat.le_refl _))]
  cases ids.max? with
  | none =>
    rw [Except.ok.injEq]
    exact (and_iff_right (by decide)).symm
  | some top =>
    simp only [Option.elim_some]
    by_cases room : top + 1 < UInt64.size
    · rw [if_pos room, Except.ok.injEq, and_iff_right room]
    · rw [if_neg room]
      exact iff_of_false nofun fun h => room h.1

/-- Without a request there are as many vertices as are needed; a request has to suffice. -/
theorem ofRows_eq_ok_iff : ofRows requested rows = .ok l ↔
    needed rows < UInt64.size ∧ needed rows ≤ requested.getD (needed rows) ∧
      l = ⟨requested.getD (needed rows), rows⟩ := by
  simp only [ofRows, bind_ok_iff, neededVertices_eq_ok_iff, and_assoc, exists_and_left,
    exists_eq_left']
  refine and_congr_right fun _ => ?_
  cases requested with
  | none => simp [eq_comm]
  | some n =>
    by_cases few : n < needed rows
    · simp [few, Nat.not_le_of_lt few]
    · simp [few, Nat.le_of_not_lt few, eq_comm]

theorem load_eq_ok_iff {content : Except FileFault Bytes} : load csv source content = .ok l ↔
    ∃ bytes rows, content = .ok bytes ∧ rowsIn csv source bytes = .ok rows ∧
      ofRows source.vertexCount rows = .ok l := by
  simp only [load, parse, bind_ok_iff, mapError_ok_iff, exists_and_left]

theorem inside_of_load {content : Except FileFault Bytes}
    (loaded : load csv source content = .ok l) : l.Inside := by
  obtain ⟨bytes, rows, -, -, made⟩ := load_eq_ok_iff.1 loaded
  obtain ⟨-, enough, rfl⟩ := ofRows_eq_ok_iff.1 made
  exact needed_le_iff.1 enough

theorem Inside.entriesWithin (inside : l.Inside) :
    Adjacency.entriesWithin l.vertexCount l.sources l.targets none =
      .ok (Adjacency.listed l.sources l.targets none) :=
  Adjacency.entriesWithin_of_admissible (Adjacency.admissible_pairs inside)

theorem Inside.graph_eq (inside : l.Inside) (room : l.vertexCount + 1 < UInt64.size) :
    l.graph = some (FrozenGraph.ofCoordinates l.vertexCount l.sources l.targets none none) := by
  rw [graph, FrozenGraph.build, FrozenGraph.ofCoordinates, Adjacency.ofCoordinates,
    inside.entriesWithin]
  exact if_pos room

/-- Without a word for the number of counters no graph is made. -/
theorem Inside.graph_eq_none (inside : l.Inside) (outgrown : UInt64.size ≤ l.vertexCount + 1) :
    l.graph = none := by
  rw [graph, FrozenGraph.build, inside.entriesWithin]
  exact if_neg (Nat.not_lt.2 outgrown)

theorem exists_graph (inside : l.Inside) (room : l.vertexCount + 1 < UInt64.size) :
    ∃ g, l.graph = some (.ok g) ∧ g.Reachable ∧ g.vertexCount = l.vertexCount ∧
      g.edgesById = EditableGraph.numbered 0 l.rows := by
  obtain ⟨g, made, count, byId⟩ := FrozenGraph.ofCoordinates_pairs inside none
  refine ⟨g, (inside.graph_eq room).trans (congrArg some made), ?_, count, byId⟩
  simp only [FrozenGraph.ofCoordinates] at made
  split at made
  · cases made
  · next a adopted =>
    obtain rfl := Except.ok.inj made
    exact .ofAdjacency (.ofCoordinates adopted) .outgoing none

end GraphRelay.EdgeList
