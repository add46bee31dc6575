import GraphRelay.Proofs.Graph.FrozenCopy

/-!
# How often each pair of vertices has an edge

The row of a vertex lists a neighbor as often as there are edges to it. Going through the rows, a hash
map counts the edges of every ordered pair that has one.
-/
namespace GraphRelay

/-- The map counts the members of a list. -/
structure Counts (counts : Std.HashMap (Nat × Nat) Nat) (pairs : List (Nat × Nat)) : Prop where
  getD : ∀ p, counts.getD p 0 = pairs.count p
  mem_iff : ∀ p, p ∈ counts ↔ p ∈ pairs

def countOne (counts : Std.HashMap (Nat × Nat) Nat) (p : Nat × Nat) :
    Std.HashMap (Nat × Nat) Nat :=
  counts.insert p (counts.getD p 0 + 1)

variable {counts : Std.HashMap (Nat × Nat) Nat} {pairs : List (Nat × Nat)}

theorem counts_empty : Counts ∅ [] := ⟨by simp, by simp⟩

theorem Counts.one (h : Counts counts pairs) (p : Nat × Nat) :
    Counts (countOne counts p) (pairs ++ [p]) where
  getD q := by
    rw [countOne, Std.HashMap.getD_insert, List.count_append, List.count_singleton, h.getD, h.getD]
    by_cases same : p = q <;> simp [same]
  mem_iff q := by
    rw [countOne, Std.HashMap.mem_insert, List.mem_append, List.mem_singleton, h.mem_iff,
      beq_iff_eq, or_comm, eq_comm]

theorem Counts.foldl (h : Counts counts pairs) (more : List (Nat × Nat)) :
    Counts (more.foldl countOne counts) (pairs ++ more) := by
  induction more generalizing counts pairs with
  | nil => simpa using h
  | cons p more ih =>
    have later := ih (h.one p)
    rwa [List.append_assoc] at later

namespace Graph

/-- The number of edges from `u` to `v`. -/
def pairCount (g : Graph) (u v : Nat) : Nat := g.edges.countP fun e => e.src = u ∧ e.dst = v

variable {g : Graph}

theorem neighborRow_eq (g : Graph) (d : Direction) (v : Nat) :
    g.neighborRow d v = ((g.arcRows d)[v]?.getD []).map Arc.neighbor := by
  rw [neighborRow, neighborRows, List.getElem?_map]
  cases (g.arcRows d)[v]? <;> rfl

theorem reach_of_lt {g : FrozenGraph} {v : Nat} (hv : v < g.vertexCount) (d : Direction) :
    g.reach d v 1 = .ok ((frozen g).neighborRow d v) := by
  have inside : g.checkVertex v = .ok () := if_pos hv
  rw [FrozenGraph.reach_one, inside, neighborRow_eq]
  rfl

theorem successors_of_lt {v : Nat} (hv : v < g.vertexCount) :
    g.successors v = .ok (g.neighborRow .outgoing v) := by
  cases g with
  | editable g =>
    rw [successors, EditableGraph.successors, EditableGraph.checkVertex_of_lt hv, neighborRow_eq]
    rfl
  | frozen g => exact reach_of_lt hv .outgoing

theorem predecessors_of_lt {v : Nat} (hv : v < g.vertexCount) :
    g.predecessors v = .ok (g.neighborRow .incoming v) := by
  cases g with
  | editable g =>
    rw [predecessors, EditableGraph.predecessors, EditableGraph.checkVertex_of_lt hv,
      neighborRow_eq]
    rfl
  | frozen g => exact reach_of_lt hv .incoming

/-- Only vertices have successors to list. -/
theorem successors_eq_ok_iff {v : Nat} {row : List Nat} : g.successors v = .ok row ↔
    v < g.vertexCount ∧ g.neighborRow .outgoing v = row := by
  by_cases hv : v < g.vertexCount
  · rw [successors_of_lt hv, Except.ok.injEq, and_iff_right hv]
  · refine iff_of_false (fun listed => ?_) fun both => hv both.1
    cases g with
    | editable g =>
      rw [successors, EditableGraph.successors, EditableGraph.checkVertex_of_not_lt hv] at listed
      cases listed
    | frozen g =>
      have outside : g.checkVertex v = .error (.vertexOutside v g.vertexCount) := if_neg hv
      rw [successors, FrozenGraph.successors, FrozenGraph.reach_one, outside] at listed
      cases listed

theorem count_neighborRow (h : g.Reachable) (u v : Nat) :
    (g.neighborRow .outgoing u).count v = g.pairCount u v := by
  have row := Adjacency.arcsOf_entriesFrom 0 u (g.arcRows .outgoing)
  have entries := (h.entries_perm .outgoing).countP_eq fun e => e.row = u ∧ e.col = v
  rw [Nat.zero_add] at row
  rw [List.countP_map] at entries
  rw [neighborRow_eq, ← row, Adjacency.arcsOf, List.map_map, List.count, List.countP_map,
    List.countP_filter, pairCount]
  refine (List.countP_congr fun e _ => ?_).trans entries
  simp [Entry.arc, and_comm]

/-- Rows without their vertices come in the order of the vertices. -/
theorem flatMap_zipIdx_rows (start : Nat) (rows : List (List Arc)) :
    ((rows.map (·.map Arc.neighbor)).zipIdx start).flatMap
        (fun (row, u) => row.map fun v => (u, v)) =
      (Adjacency.entriesFrom start rows).map fun e => (e.row, e.col) := by
  induction rows generalizing start with
  | nil => rfl
  | cons row rows ih =>
    rw [List.map_cons, List.zipIdx_cons, List.flatMap_cons, ih, Adjacency.entriesFrom,
      List.map_append]
    dsimp only
    rw [List.map_map, List.map_map]
    rfl

theorem pairs_perm (h : g.Reachable) : g.pairs.Perm (g.edges.map fun e => (e.src, e.dst)) := by
  have entries := (h.entries_perm .outgoing).map fun e => (e.row, e.col)
  rw [List.map_map] at entries
  rw [pairs, neighborRows]
  exact (List.Perm.of_eq (flatMap_zipIdx_rows 0 _)).trans entries

theorem mem_pairs (h : g.Reachable) {u v : Nat} :
    (u, v) ∈ g.pairs ↔ ∃ e ∈ g.edges, e.src = u ∧ e.dst = v := by
  rw [(pairs_perm h).mem_iff, List.mem_map]
  simp only [Prod.mk.injEq]

theorem mem_successors (h : g.Reachable) {u v : Nat} :
    v ∈ g.neighborRow .outgoing u ↔ (u, v) ∈ g.pairs := by
  rw [mem_neighborRow h, mem_pairs h]
  rfl

theorem mem_predecessors (h : g.Reachable) {u v : Nat} :
    u ∈ g.neighborRow .incoming v ↔ (u, v) ∈ g.pairs := by
  rw [mem_neighborRow h, mem_pairs h]
  simp only [Edge.entryOf, and_comm]

theorem count_pairs (h : g.Reachable) (u v : Nat) : g.pairs.count (u, v) = g.pairCount u v := by
  rw [(pairs_perm h).count_eq, List.count, List.countP_map, pairCount]
  refine List.countP_congr fun e _ => ?_
  simp

def countRow (g : Graph) (counts : Std.HashMap (Nat × Nat) Nat) (u : Nat) :
    Except Fault (Std.HashMap (Nat × Nat) Nat) := do
  let row ← g.successors u
  pure ((row.map fun v => (u, v)).foldl countOne counts)

/-- Counts the edges of each ordered pair that has one. -/
def countPairs (g : Graph) : Except Fault (Std.HashMap (Nat × Nat) Nat) :=
  (List.range g.vertexCount).foldlM g.countRow ∅

theorem pairs_eq (h : g.Reachable) : g.pairs =
    (List.range g.vertexCount).flatMap fun u => (g.neighborRow .outgoing u).map fun v => (u, v) := by
  rw [pairs, neighborRows, flatMap_zipIdx_rows, Adjacency.entriesFrom_eq_flatMap,
    List.map_flatMap, h.length_arcRows]
  simp only [List.map_map, neighborRow_eq, Nat.zero_add]
  rfl

theorem foldlM_countRow {counts : Std.HashMap (Nat × Nat) Nat} {pairs : List (Nat × Nat)}
    (h : Counts counts pairs) {us : List Nat} (inside : ∀ u ∈ us, u < g.vertexCount) :
    ∃ counts', us.foldlM g.countRow counts = .ok counts' ∧ Counts counts'
      (pairs ++ us.flatMap fun u => (g.neighborRow .outgoing u).map fun v => (u, v)) := by
  induction us generalizing counts pairs with
  | nil => exact ⟨counts, rfl, by simpa using h⟩
  | cons u us ih =>
    rw [List.forall_mem_cons] at inside
    obtain ⟨counts', ok, counted⟩ :=
      ih (h.foldl ((g.neighborRow .outgoing u).map fun v => (u, v))) inside.2
    rw [List.append_assoc] at counted
    refine ⟨counts', ?_, counted⟩
    rw [List.foldlM_cons, countRow, successors_of_lt inside.1]
    exact ok

theorem exists_countPairs (h : g.Reachable) :
    ∃ counts, g.countPairs = .ok counts ∧ Counts counts g.pairs := by
  have all := @foldlM_countRow g _ _ counts_empty (List.range g.vertexCount)
    fun u => List.mem_range.1
  rwa [List.nil_append, ← pairs_eq h] at all

end Graph

end GraphRelay
