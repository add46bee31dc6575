import GraphRelay.Proofs.Adjacency.IndexedSorting
import GraphRelay.Proofs.Command.Partition
import GraphRelay.Proofs.Graph.PairCounts

/-!
# Statistics of a loaded edge list

The statistics of the graph of an edge list are what one counts in the rows of the list. In either
direction the row of a vertex holds the edges with their end there, so a degree counts rows of the
list, and a neighbor repeats where a pair does.
-/
namespace GraphRelay

/-- Where a row of an edge list belongs in the adjacency of a direction. -/
def Direction.endOf (d : Direction) (row : Nat × Nat) : Nat :=
  match d with
  | .outgoing => row.1
  | .incoming => row.2

namespace EdgeList

/-- How many rows have the vertex as their end. -/
def degree (l : EdgeList) (d : Direction) (v : Nat) : Nat := l.rows.countP fun row => d.endOf row = v

/-- The largest number of rows that share an end, or 0 without any rows. -/
def maxDegree (l : EdgeList) (d : Direction) : Nat :=
  (l.rows.map fun row => l.degree d (d.endOf row)).max?.getD 0

/-- The statistics, counted in the rows alone. -/
def tally (l : EdgeList) : StatsReport where
  vertices := l.vertexCount
  edges := l.rows.length
  multigraph := l.rows.any fun row => 1 < l.rows.count row
  maxInDegree := l.maxDegree .incoming
  maxOutDegree := l.maxDegree .outgoing
  isolated := (List.range l.vertexCount).countP fun v => l.rows.all fun row => row.1 ≠ v ∧ row.2 ≠ v

theorem max?_getD_le_iff {xs : List Nat} {k : Nat} : xs.max?.getD 0 ≤ k ↔ ∀ x ∈ xs, x ≤ k := by
  cases largest : xs.max? with
  | none =>
    rw [List.max?_eq_none_iff.1 largest]
    simp
  | some top => exact List.max?_le_iff largest

variable {l : EdgeList} {d : Direction} {g : FrozenGraph}

theorem degree_eq_zero_iff {v : Nat} : l.degree d v = 0 ↔ ∀ row ∈ l.rows, d.endOf row ≠ v := by
  simp [degree, List.countP_eq_zero]

theorem Inside.endOf_lt (inside : l.Inside) (d : Direction) {row : Nat × Nat} (hrow : row ∈ l.rows) :
    d.endOf row < l.vertexCount := by
  cases d with
  | outgoing => exact (inside row hrow).1
  | incoming => exact (inside row hrow).2

/-- A vertex at which no row ends has no part in the largest degree. -/
theorem Inside.max?_degrees (inside : l.Inside) (d : Direction) :
    ((List.range l.vertexCount).map (l.degree d)).max?.getD 0 = l.maxDegree d := by
  have bound (k : Nat) : ((List.range l.vertexCount).map (l.degree d)).max?.getD 0 ≤ k ↔
      l.maxDegree d ≤ k := by
    rw [maxDegree, max?_getD_le_iff, max?_getD_le_iff, List.forall_mem_map, List.forall_mem_map]
    constructor
    · exact fun most row hrow => most _ (List.mem_range.2 (inside.endOf_lt d hrow))
    · intro most v _
      by_cases ends : ∃ row ∈ l.rows, d.endOf row = v
      · obtain ⟨row, hrow, rfl⟩ := ends
        exact most row hrow
      · rw [degree_eq_zero_iff.2 fun row hrow same => ends ⟨row, hrow, same⟩]
        exact Nat.zero_le k
  exact Nat.le_antisymm ((bound _).2 (Nat.le_refl _)) ((bound _).1 (Nat.le_refl _))

/-- Pairs of degrees that are zero belong to the vertices in no row. -/
theorem countP_degrees (l : EdgeList) :
    (((List.range l.vertexCount).map (l.degree .incoming)).zip
        ((List.range l.vertexCount).map (l.degree .outgoing))).countP (fun (i, o) => i = 0 && o = 0) =
      l.tally.isolated := by
  rw [List.zip_map', List.countP_map, tally]
  refine List.countP_congr fun v _ => ?_
  simp only [Function.comp_apply, Bool.and_eq_true, decide_eq_true_eq, degree_eq_zero_iff,
    Direction.endOf, List.all_eq_true, ← forall_and]
  exact forall₂_congr fun row _ => and_comm

end EdgeList

/-- Some row has a neighbor more than once. -/
theorem Adjacency.hasRepeat_iff {a : Adjacency} :
    a.hasRepeat = true ↔ ∃ u v, 1 < ((a.row u).map Arc.neighbor).count v := by
  rw [hasRepeat, List.any_eq_true]
  simp only [Bool.not_eq_true', decide_eq_false_iff_not, List.nodup_iff_count_le_one, not_forall,
    Nat.not_le]
  constructor
  · rintro ⟨row, hrow, v, twice⟩
    obtain ⟨u, hu⟩ := List.getElem?_of_mem hrow
    have own : a.row u = row := by rw [Adjacency.row, hu, Option.getD_some]
    exact ⟨u, v, own ▸ twice⟩
  · rintro ⟨u, v, twice⟩
    obtain ⟨arc, harc, -⟩ := List.mem_map.1 (List.count_pos_iff.1 (Nat.lt_of_succ_lt twice))
    exact ⟨a.row u, row_mem_of_mem harc, v, twice⟩

namespace FrozenGraph

variable {g : FrozenGraph} {rows : List (Nat × Nat)}

theorem degrees_range (g : FrozenGraph) (d : Direction) : g.degrees d (List.range g.vertexCount) =
    .ok ((List.range g.vertexCount).map (g.view d).degree) := by
  rw [degrees, atRows_eq]
  refine mapM_ok fun v hv => ?_
  rw [checkVertex, if_pos (List.mem_range.1 hv)]
  rfl

/-- The row of a vertex holds the edges with their end there. -/
theorem Reachable.degree_view (h : g.Reachable) (byId : g.edgesById = EditableGraph.numbered 0 rows)
    (d : Direction) (v : Nat) :
    (g.view d).degree v = rows.countP fun row => d.endOf row = v := by
  have own := Adjacency.arcsOf_entriesFrom 0 v (g.view d).rows
  have entries := ((Graph.Reachable.frozen h).entries_perm d).countP_eq fun e => e.row = v
  rw [Nat.zero_add] at own
  rw [Adjacency.degree, Adjacency.row, ← own, Adjacency.length_arcsOf]
  refine entries.trans ?_
  rw [← (map_endpoints_perm byId).countP_eq, List.countP_map, List.countP_map]
  cases d <;> rfl

theorem Reachable.count_row (h : g.Reachable)
    (byId : g.edgesById = EditableGraph.numbered 0 rows) (u v : Nat) :
    (((g.view .outgoing).row u).map Arc.neighbor).count v = rows.count (u, v) := by
  have row := Graph.neighborRow_eq (.frozen g) .outgoing u
  have counted := Graph.count_neighborRow (.frozen h) u v
  rw [row] at counted
  refine counted.trans ?_
  rw [Graph.pairCount, ← (map_endpoints_perm byId).count_eq, List.count, List.countP_map]
  refine List.countP_congr fun e _ => ?_
  simp [Edge.endpoints]

theorem Reachable.hasRepeat_view (h : g.Reachable)
    (byId : g.edgesById = EditableGraph.numbered 0 rows) :
    (g.view .outgoing).hasRepeat = rows.any fun row => 1 < rows.count row := by
  rw [Bool.eq_iff_iff, Adjacency.hasRepeat_iff, List.any_eq_true]
  simp only [h.count_row byId, decide_eq_true_eq]
  constructor
  · rintro ⟨u, v, twice⟩
    exact ⟨(u, v), List.count_pos_iff.1 (Nat.lt_of_succ_lt twice), twice⟩
  · rintro ⟨⟨u, v⟩, -, twice⟩
    exact ⟨u, v, twice⟩

end FrozenGraph

namespace EdgeList

theorem multigraph_of_graph {l : EdgeList} {g : FrozenGraph} (made : l.graph = some (.ok g)) :
    g.multigraph = (g.view .outgoing).hasRepeat := by
  rw [graph, FrozenGraph.build] at made
  split at made
  · cases made
  · split at made
    · obtain rfl := Except.ok.inj (Option.some.inj made)
      rfl
    · cases made

/-- What the graph tells about itself is what the rows tell. -/
theorem ofGraph_eq {l : EdgeList} {g : FrozenGraph} (inside : l.Inside)
    (room : l.vertexCount + 1 < UInt64.size) (made : l.graph = some (.ok g)) :
    StatsReport.ofGraph g = .ok l.tally := by
  obtain ⟨g', made', reachable, count, byId⟩ := exists_graph inside room
  obtain rfl := Except.ok.inj (Option.some.inj (made.symm.trans made'))
  have degrees (d : Direction) :
      g.degrees d (List.range g.vertexCount) = .ok ((List.range l.vertexCount).map (l.degree d)) := by
    have same : (g.view d).degree = l.degree d := funext (reachable.degree_view byId d)
    rw [FrozenGraph.degrees_range, same, count]
  have edges : g.edgeCount = l.rows.length := by
    have rows := (FrozenGraph.map_endpoints_perm byId).length_eq
    rw [List.length_map] at rows
    exact (Graph.Reachable.frozen reachable).edgeCount_eq.trans rows
  have flag : g.multigraph = l.tally.multigraph :=
    (multigraph_of_graph made).trans (reachable.hasRepeat_view byId)
  simp only [StatsReport.ofGraph, degrees, bind, Except.bind, pure, Except.pure]
  rw [count, edges, flag, inside.max?_degrees, inside.max?_degrees, countP_degrees]
  rfl

end EdgeList

namespace Command

variable {csv : Csv.Codec} {w : MemoryHost} {l : EdgeList}

theorem outcome_stats_none {input : EdgeListInput}
    (loaded : EdgeList.load csv input.source (w.files.read input.path) = .ok l)
    (outgrown : UInt64.size ≤ l.vertexCount + 1) (format : ReportFormat) :
    outcome (stats csv format input) w = (.error .overflow, w) :=
  outcome_bind_error (outcome_loadGraph_none loaded outgrown) _

/-- After a file was loaded the command presents what its rows say: the graph can be built and no array
of either direction is read out of bounds. Only vertices to whose number nothing can be added end the
program. -/
theorem stats_tallies (csv : Csv.Codec) {input : EdgeListInput}
    (loaded : EdgeList.load csv input.source (w.files.read input.path) = .ok l) :
    (l.vertexCount + 1 < UInt64.size →
      (∃ g, l.graph = some (.ok g) ∧ (∀ d, (g.view d).InBounds) ∧
        StatsReport.ofGraph g = .ok l.tally) ∧
      ∀ format, outcome (stats csv format input) w =
        (.ok (present format l.tally.text l.tally.outline), w)) ∧
    (UInt64.size ≤ l.vertexCount + 1 →
      ∀ format, outcome (stats csv format input) w = (.error .overflow, w)) := by
  have inside := EdgeList.inside_of_load loaded
  refine ⟨fun room => ?_, outcome_stats_none loaded⟩
  obtain ⟨g, made, reachable, -, -⟩ := EdgeList.exists_graph inside room
  have counted := EdgeList.ofGraph_eq inside room made
  refine ⟨⟨g, made, fun d => (reachable.view d).1.inBounds, counted⟩, fun format => ?_⟩
  rw [stats, outcome_bind_ok (outcome_loadGraph loaded made), counted,
    outcome_bind_ok (outcome_ofExcept ..)]
  rfl

/-- Parallel edges, a loop and a vertex without edges. -/
theorem stats_tallies_parallel :
    outcome (stats .standard .text ⟨"e", ⟨"src", "dst", none⟩⟩)
        (hostWith (Wire.text "src,dst\n3,1\n0,0\n3,1\n0,1\n")) =
      (.ok "vertices=4 edges=4 multigraph=true\nmax_in_degree=3 max_out_degree=2 isolated=1\n",
        hostWith (Wire.text "src,dst\n3,1\n0,0\n3,1\n0,1\n")) := by
  have parsed : EdgeList.load .standard ⟨"src", "dst", none⟩
      (.ok (Wire.text "src,dst\n3,1\n0,0\n3,1\n0,1\n")) =
        .ok ⟨4, [(3, 1), (0, 0), (3, 1), (0, 1)]⟩ := by decide
  rw [← read_hostWith] at parsed
  exact ((@stats_tallies _ _ .standard ⟨"e", ⟨"src", "dst", none⟩⟩ parsed).1 (by decide)).2 .text

/-- An edge of the largest vertex for which a list is loaded. -/
theorem stats_overflows :
    EdgeList.load .standard ⟨"src", "dst", none⟩
        ((hostWith (Wire.text "src,dst\n18446744073709551614,1\n")).files.read "e") =
      .ok ⟨18446744073709551615, [(18446744073709551614, 1)]⟩ ∧
    outcome (stats .standard .json ⟨"e", ⟨"src", "dst", none⟩⟩)
        (hostWith (Wire.text "src,dst\n18446744073709551614,1\n")) =
      (.error .overflow, hostWith (Wire.text "src,dst\n18446744073709551614,1\n")) := by
  have parsed : EdgeList.load .standard ⟨"src", "dst", none⟩
      (.ok (Wire.text "src,dst\n18446744073709551614,1\n")) =
        .ok ⟨18446744073709551615, [(18446744073709551614, 1)]⟩ := by decide
  rw [← read_hostWith] at parsed
  exact ⟨parsed, @outcome_stats_none .standard _ _ ⟨"e", ⟨"src", "dst", none⟩⟩ parsed (by decide) _⟩

end Command

end GraphRelay
