import GraphRelay.Proofs.Command.Saving
import GraphRelay.Proofs.EdgeList.RoundTrip
import GraphRelay.Proofs.Graph.HaloParts
import Mathlib

/-!
# Even partitions

Parts of consecutive vertices are as equal in size as can be, none of them is empty, and what is
written for them loses no edge.
-/
namespace GraphRelay

namespace Partition

/-- The first vertex of part `p` when `n` vertices are shared out evenly. -/
def start (n parts p : Nat) : Nat := (p * n) ⌈/⌉ parts

/-- The vertices of part `p`. -/
def range (n parts p : Nat) : List Nat :=
  List.range' (start n parts p) (start n parts (p + 1) - start n parts p)

section Start

variable {n parts : Nat}

theorem start_le_iff (positive : 0 < parts) {p v : Nat} :
    start n parts p ≤ v ↔ p * n ≤ parts * v :=
  ceilDiv_le_iff_le_mul positive

theorem start_zero (positive : 0 < parts) : start n parts 0 = 0 := by
  have := (start_le_iff (n := n) (p := 0) (v := 0) positive).2 (by simp)
  omega

theorem start_parts (positive : 0 < parts) : start n parts parts = n := by
  apply Nat.le_antisymm
  · exact (start_le_iff positive).2 (Nat.le_refl _)
  · have := (start_le_iff (n := n) positive).1 (Nat.le_refl (start n parts parts))
    exact Nat.le_of_mul_le_mul_left this positive

theorem le_mul_start (positive : 0 < parts) (p : Nat) : p * n ≤ parts * start n parts p :=
  (start_le_iff positive).1 (Nat.le_refl _)

theorem part_eq_iff (vertices : 0 < n) (positive : 0 < parts) {v p : Nat} :
    v * parts / n = p ↔ start n parts p ≤ v ∧ v < start n parts (p + 1) := by
  rw [Nat.div_eq_iff vertices, start_le_iff positive, ← Nat.not_le, start_le_iff positive,
    Nat.mul_comm v, Nat.succ_mul]
  omega

theorem add_div_le_start (positive : 0 < parts) (p : Nat) :
    start n parts p + n / parts ≤ start n parts (p + 1) := by
  have next := le_mul_start (n := n) positive (p + 1)
  have whole := Nat.mul_div_le n parts
  rw [Nat.succ_mul] at next
  have fits : n / parts ≤ start n parts (p + 1) :=
    Nat.le_of_mul_le_mul_left (show parts * (n / parts) ≤ _ by omega) positive
  have before : start n parts p ≤ start n parts (p + 1) - n / parts := by
    rw [start_le_iff positive, Nat.mul_sub]
    omega
  omega

theorem start_le_add_ceilDiv (positive : 0 < parts) (p : Nat) :
    start n parts (p + 1) ≤ start n parts p + n ⌈/⌉ parts := by
  have here := le_mul_start (n := n) positive p
  have share : n ≤ parts * (n ⌈/⌉ parts) := (ceilDiv_le_iff_le_mul positive).1 (Nat.le_refl _)
  rw [start_le_iff positive, Nat.succ_mul, Nat.mul_add]
  omega

theorem ceilDiv_le_succ (positive : 0 < parts) : n ⌈/⌉ parts ≤ n / parts + 1 := by
  rw [ceilDiv_le_iff_le_mul positive]
  exact Nat.le_of_lt (Nat.lt_mul_div_succ n positive)

theorem start_le_succ (positive : 0 < parts) (p : Nat) :
    start n parts p ≤ start n parts (p + 1) :=
  Nat.le_of_add_right_le (add_div_le_start positive p)

theorem mem_range (vertices : 0 < n) (positive : 0 < parts) {v p : Nat} :
    v ∈ range n parts p ↔ v * parts / n = p := by
  have := start_le_succ (n := n) positive p
  rw [part_eq_iff vertices positive, range, List.mem_range'_1]
  omega

theorem length_range (positive : 0 < parts) (p : Nat) :
    (range n parts p).length = n / parts ∨ (range n parts p).length = n ⌈/⌉ parts := by
  have least := add_div_le_start (n := n) positive p
  have most := start_le_add_ceilDiv (n := n) positive p
  have close := ceilDiv_le_succ (n := n) positive
  rw [range, List.length_range']
  omega

theorem flatMap_range (positive : 0 < parts) (k : Nat) :
    (List.range k).flatMap (range n parts) = List.range (start n parts k) := by
  induction k with
  | zero => rw [start_zero positive, List.range_zero, List.flatMap_nil]
  | succ k ih =>
    have ascending := start_le_succ (n := n) positive k
    have next := List.range'_append_1 (s := 0) (m := start n parts k)
      (n := start n parts (k + 1) - start n parts k)
    rw [Nat.zero_add, Nat.add_sub_cancel' ascending] at next
    rw [List.range_succ, List.flatMap_append, ih, List.flatMap_singleton, range,
      List.range_eq_range', List.range_eq_range', next]

end Start

section Assignment

variable {n parts : Nat}

theorem effectiveParts_eq (vertices : 0 < n) (parts : Nat) : effectiveParts n parts = min parts n := by
  rw [effectiveParts, Nat.max_eq_left vertices]

theorem getElem?_assignment (vertices : 0 < n) {v p : Nat} :
    (assignment n parts)[v]? = some p ↔ v < n ∧ v * parts / n = p := by
  rw [assignment, List.getElem?_map, Nat.max_eq_left vertices]
  by_cases hv : v < n
  · simp [hv]
  · simp [hv]

theorem lt_of_mem_assignment (vertices : 0 < n) (positive : 0 < parts) {p : Nat}
    (hp : p ∈ assignment n parts) : p < parts := by
  obtain ⟨v, hv⟩ := List.getElem?_of_mem hp
  obtain ⟨inside, rfl⟩ := (getElem?_assignment vertices).1 hv
  rw [Nat.div_lt_iff_lt_mul vertices, Nat.mul_comm parts]
  exact Nat.mul_lt_mul_of_pos_right inside positive

/-- The last vertex is in the last part. -/
theorem partCount_assignment (positive : 0 < parts) (enough : parts ≤ n) :
    FrozenGraph.partCount (assignment n parts) = parts := by
  have vertices : 0 < n := by omega
  have last : parts - 1 ∈ assignment n parts := by
    have own : (n - 1) * parts / n = parts - 1 := by
      rw [part_eq_iff vertices positive, Nat.sub_add_cancel positive, start_parts positive,
        start_le_iff positive]
      refine ⟨?_, by omega⟩
      rw [Nat.sub_mul, Nat.mul_sub]
      omega
    exact List.mem_of_getElem? ((getElem?_assignment vertices).2 ⟨by omega, own⟩)
  have largest : (assignment n parts).max? = some (parts - 1) := by
    refine List.max?_eq_some_iff.2 ⟨last, fun p hp => ?_⟩
    have := lt_of_mem_assignment vertices positive hp
    omega
  rw [FrozenGraph.partCount, largest]
  exact Nat.sub_add_cancel positive

theorem assigned_assignment {g : FrozenGraph} (count : g.vertexCount = n) (positive : 0 < parts)
    (enough : parts ≤ n) : g.Assigned (assignment n parts) where
  length := by simp [assignment, count]
  lt p hp := by
    have := lt_of_mem_assignment (by omega) positive hp
    omega

theorem part_lt_iff (vertices : 0 < n) {v : Nat} (positive : 0 < parts) :
    v * parts / n < parts ↔ v < n := by
  rw [Nat.div_lt_iff_lt_mul vertices, Nat.mul_comm v, Nat.mul_lt_mul_left positive]

/-- The inner vertices of a part's halo are the range of the part. -/
theorem ownVertices_eq_range {g : Graph} {halo : Halo} {p hops : Nat} (vertices : 0 < n)
    (positive : 0 < parts) (inside : p < parts)
    (h : halo.Surrounds g (FrozenGraph.members (assignment n parts) p) hops) :
    halo.ownVertices = range n parts p := by
  have own : halo.ownVertices.Pairwise (· < ·) := by
    rw [Halo.ownVertices, h.innerVertices, Halo.map_fst_filter_zip_map]
    exact h.ascending.filter _
  have ascending : (range n parts p).Pairwise (· < ·) := List.pairwise_lt_range' ..
  apply own.eq_of_mem_iff ascending
  intro v
  rw [h.mem_ownVertices, FrozenGraph.mem_members, getElem?_assignment vertices,
    mem_range vertices positive]
  have := part_lt_iff vertices (v := v) positive
  omega

end Assignment

end Partition

theorem Halo.Surrounds.innerCount_eq {halo : Halo} {g : Graph} {seeds : List Nat} {hops : Nat}
    (h : halo.Surrounds g seeds hops) : halo.innerCount = halo.ownVertices.length := by
  rw [Halo.innerCount, Halo.ownVertices, h.innerVertices, Halo.map_fst_filter_zip_map,
    ← List.countP_eq_length_filter, List.count, List.countP_map]
  exact List.countP_congr fun v _ => by simp

theorem Partition.parentEdges_eq {halo : Halo} (lists : halo.sub.Lists halo.sub.parentEdges) :
    Partition.parentEdges halo = halo.sub.parentEdges.map Edge.endpoints := by
  have located := congrArg (List.map fun e => (e.map Edge.endpoints).getD (0, 0)) lists.located
  rw [List.map_map, List.map_map] at located
  refine Eq.trans (List.map_congr_left fun e he => ?_) located
  have shown : halo.sub.parentEdge? e ∈ halo.sub.parentEdges.map some := by
    rw [← lists.located]
    exact List.mem_map_of_mem he
  obtain ⟨parent, -, same⟩ := List.mem_map.1 shown
  rw [Function.comp, ← same]
  simp only [Subgraph.parentEdge?] at same
  split at same
  · next src dst id hsrc hdst _ =>
    obtain rfl := Option.some.inj same
    simp [hsrc, hdst, Edge.endpoints]
  · cases same

namespace FrozenGraph

variable {g : FrozenGraph} {rows : List (Nat × Nat)}

/-- Edges that are numbered rows have the rows as their endpoints. -/
theorem map_endpoints_perm (byId : g.edgesById = EditableGraph.numbered 0 rows) :
    (g.edges.map Edge.endpoints).Perm rows := by
  have listed : rows = (g.edgesById).map Edge.endpoints := by
    rw [byId]
    exact (EditableGraph.map_endpoints_numbered 0 rows).symm
  rw [listed]
  exact ((List.mergeSort_perm g.edges _).map Edge.endpoints).symm

/-- Two vertices have one part exactly if some halo has both as inner vertices. -/
theorem Covered.same_part {parts : List Nat} {hops : Nat} {halos : List Halo}
    (h : g.Covered parts hops halos) {u v : Nat} (hu : u < g.vertexCount) :
    parts[u]? = parts[v]? ↔ ∃ halo ∈ halos, u ∈ halo.ownVertices ∧ v ∈ halo.ownVertices := by
  constructor
  · intro same
    obtain ⟨p, ⟨halo, hp, own⟩, -⟩ := h.owner u hu
    have shown := h.partHalo p halo hp
    refine ⟨halo, List.mem_of_getElem? hp, own, ?_⟩
    rw [shown.mem_ownVertices, ← same, ← shown.mem_ownVertices]
    exact own
  · intro shared
    obtain ⟨halo, hhalo, hu, hv⟩ := shared
    obtain ⟨p, hp⟩ := List.getElem?_of_mem hhalo
    have shown := h.partHalo p halo hp
    rw [(shown.mem_ownVertices u).1 hu, (shown.mem_ownVertices v).1 hv]

end FrozenGraph

namespace Partition

/-- The parts are ranges that follow one another, as equal in size as can be, and neither the reports
nor what is written for the parts lose an edge. -/
structure Even (l : EdgeList) (parts hops : Nat) (directory : Option String) (halos : List Halo) :
    Prop where
  numbered : (reports directory halos).map PartReport.part = List.range (min parts l.vertexCount)
  ranges : halos.flatMap Halo.ownVertices = List.range l.vertexCount
  sizes : ∀ halo ∈ halos, halo.ownVertices.length = l.vertexCount / min parts l.vertexCount ∨
    halo.ownVertices.length = l.vertexCount ⌈/⌉ min parts l.vertexCount
  counts : (reports directory halos).map PartReport.innerVertices =
    halos.map (·.ownVertices.length)
  innerVertices : ((reports directory halos).map PartReport.innerVertices).sum = l.vertexCount
  innerEdges : ((reports directory halos).map PartReport.innerEdges).sum =
    l.rows.countP fun r => ∃ halo ∈ halos, r.1 ∈ halo.ownVertices ∧ r.2 ∈ halo.ownVertices
  arriving : 0 < hops → ∀ halo ∈ halos,
    (l.rows.filter fun r => r.2 ∈ halo.ownVertices).Subperm (parentEdges halo)
  shared : hops = 1 → (halos.flatMap parentEdges).Perm l.rows
  listed : ∀ halo ∈ halos, parentEdges halo ⊆ l.rows

theorem map_part_reports (directory : Option String) (halos : List Halo) :
    (reports directory halos).map PartReport.part = List.range halos.length := by
  rw [reports, List.map_map, List.range_eq_range', ← List.zipIdx_map_snd 0 halos]
  rfl

theorem map_reports {α : Type} {use : PartReport → α} {own : Halo → α}
    (same : ∀ part halo output, use (.ofHalo part halo output) = own halo)
    (directory : Option String) (halos : List Halo) :
    (reports directory halos).map use = halos.map own := by
  have read : halos.map own = (halos.zipIdx.map Prod.fst).map own := by rw [List.zipIdx_map_fst]
  rw [reports, List.map_map, read, List.map_map]
  exact List.map_congr_left fun (halo, part) _ => same part halo _

theorem isProper_partName (part : Nat) :
    FileTree.IsProper ("part-" ++ toString part ++ ".csv") := by
  have digits (c : Char) (hc : c ∈ (toString part).toList) : c ≠ '/' := by
    rintro rfl
    exact absurd (Decimal.isDigit_of_mem_toString hc) (by decide)
  have letters : ("part-" ++ toString part ++ ".csv").toList =
      'p' :: 'a' :: ("rt-".toList ++ (toString part).toList ++ ".csv".toList) := by
    simp
  refine ⟨fun slash => ?_, ?_, ?_, ?_⟩
  · simp only [String.toList_append, List.mem_append] at slash
    obtain (slash | slash) | slash := slash
    · exact absurd slash (by decide)
    · exact digits _ slash rfl
    · exact absurd slash (by decide)
  all_goals
    rw [ne_eq, ← String.toList_inj, letters]
    simp

/-- The files of different parts are apart. -/
theorem apart_edgeFiles (csv : Csv.Codec) (directory : String) (halos : List Halo) :
    (edgeFiles csv directory halos).Pairwise fun f f' => FileTree.Apart f.1 f'.1 := by
  have parts : halos.zipIdx.Pairwise fun x y => x.2 ≠ y.2 := by
    rw [← List.pairwise_map (f := Prod.snd) (R := (· ≠ ·)), List.zipIdx_map_snd]
    exact List.nodup_range'
  refine List.pairwise_map.2 (parts.imp fun {x y} other => ?_)
  refine FileTree.apart_pathBelow (isProper_partName x.2) (isProper_partName y.2) fun same => other ?_
  simpa [String.append_left_inj, String.append_right_inj, Nat.repr_inj] using same

section Halos

variable {g : FrozenGraph} {n parts hops : Nat} {halos : List Halo}
  (each : List.Forall₂ (fun p halo => halo.Surrounds (.frozen g)
    (FrozenGraph.members (assignment n parts) p) hops) (List.range parts) halos)

include each

theorem exists_surrounds {halo : Halo} (shown : halo ∈ halos) :
    ∃ p < parts, halo.Surrounds (.frozen g) (FrozenGraph.members (assignment n parts) p) hops := by
  obtain ⟨p, hp⟩ := List.getElem?_of_mem shown
  refine ⟨p, ?_, of_forall₂_range each hp⟩
  have := (List.getElem?_eq_some_iff.1 hp).1
  rwa [← each.length_eq, List.length_range] at this

theorem map_ownVertices (vertices : 0 < n) (positive : 0 < parts) :
    halos.map Halo.ownVertices = (List.range parts).map (range n parts) := by
  have length := each.length_eq
  rw [List.length_range] at length
  refine List.ext_getElem (by simp [length]) fun p hp _ => ?_
  rw [List.length_map] at hp
  have own := of_forall₂_range each (List.getElem?_eq_getElem hp)
  simp only [List.getElem_map, List.getElem_range]
  exact ownVertices_eq_range vertices positive (length ▸ hp) own

theorem flatMap_ownVertices (vertices : 0 < n) (positive : 0 < parts) :
    halos.flatMap Halo.ownVertices = List.range n := by
  have all := flatMap_range (n := n) positive parts
  rw [start_parts positive] at all
  rw [← all, List.flatMap_def, List.flatMap_def, map_ownVertices each vertices positive]

theorem length_ownVertices (vertices : 0 < n) (positive : 0 < parts) :
    ∀ halo ∈ halos, halo.ownVertices.length = n / parts ∨
      halo.ownVertices.length = n ⌈/⌉ parts := by
  intro halo hhalo
  have listed : halo.ownVertices ∈ halos.map Halo.ownVertices := List.mem_map_of_mem hhalo
  rw [map_ownVertices each vertices positive] at listed
  obtain ⟨p, -, own⟩ := List.mem_map.1 listed
  rw [← own]
  exact length_range positive p

theorem map_innerCount : halos.map Halo.innerCount = halos.map (·.ownVertices.length) := by
  apply List.map_congr_left
  intro halo hhalo
  obtain ⟨p, -, surrounds⟩ := exists_surrounds each hhalo
  exact surrounds.innerCount_eq

theorem map_parentEdges : halos.map parentEdges =
    halos.map fun halo => halo.sub.parentEdges.map Edge.endpoints := by
  apply List.map_congr_left
  intro halo hhalo
  obtain ⟨p, -, surrounds⟩ := exists_surrounds each hhalo
  exact parentEdges_eq surrounds.lists

end Halos

/-- All rows that end in a part reach its halo. -/
theorem arriving_rows {g : FrozenGraph} {parts : List Nat} {hops p : Nat} {halo : Halo}
    {rows : List (Nat × Nat)} (same : (g.edges.map Edge.endpoints).Perm rows)
    (shown : g.PartHalo parts hops p halo) (positive : 0 < hops)
    (listed : parentEdges halo = halo.sub.parentEdges.map Edge.endpoints) :
    (rows.filter fun r => r.2 ∈ halo.ownVertices).Subperm (parentEdges halo) := by
  have arriving : ((g.edges.filter fun e => parts[e.dst]? = some p).map Edge.endpoints).Subperm
      (halo.sub.parentEdges.map Edge.endpoints) := by
    obtain ⟨chosen, same, sub⟩ := shown.arriving positive
    exact ⟨chosen.map Edge.endpoints, same.map _, sub.map _⟩
  have ends : (g.edges.map Edge.endpoints).filter (fun r => r.2 ∈ halo.ownVertices) =
      (g.edges.filter fun e => parts[e.dst]? = some p).map Edge.endpoints := by
    rw [List.filter_map]
    congr 1
    apply List.filter_congr
    intro e _
    exact decide_eq_decide.2 (shown.mem_ownVertices e.dst)
  rw [listed]
  rw [← ends] at arriving
  exact ((same.filter _).symm.subperm).trans arriving

theorem exists_even {l : EdgeList} (inside : l.Inside) (vertices : 0 < l.vertexCount) {parts : Nat}
    (positive : 0 < parts) (room : l.vertexCount + 1 < UInt64.size)
    (word : l.vertexCount * min parts l.vertexCount < UInt64.size) (hops : Nat)
    (directory : Option String) :
    ∃ g halos, l.graph = some (.ok g) ∧ Partition.halos g parts hops = some (.ok halos) ∧
      Even l parts hops directory halos := by
  obtain ⟨g, made, reachable, count, byId⟩ := EdgeList.exists_graph inside room
  have effective : effectiveParts g.vertexCount parts = min parts l.vertexCount := by
    rw [count, effectiveParts_eq vertices]
  have nonempty : 0 < min parts l.vertexCount := by omega
  have enough : min parts l.vertexCount ≤ l.vertexCount := Nat.min_le_right ..
  have assigned := assigned_assignment count nonempty enough
  obtain ⟨halos, cut, each⟩ := FrozenGraph.exists_haloParts reachable assigned hops
  have covered := FrozenGraph.covered_of_surrounds reachable assigned each
  rw [partCount_assignment nonempty enough] at each
  refine ⟨g, halos, made, ?_, ?_⟩
  · have largest : (l.vertexCount - 1) * min parts l.vertexCount < UInt64.size :=
      Nat.lt_of_le_of_lt (Nat.mul_le_mul_right _ (Nat.sub_le _ 1)) word
    simp only [Partition.halos]
    rw [effective, count, if_pos largest, cut]
  have rows := FrozenGraph.map_endpoints_perm byId
  have length : halos.length = min parts l.vertexCount := by
    rw [← each.length_eq, List.length_range]
  have counts : (reports directory halos).map PartReport.innerVertices =
      halos.map (·.ownVertices.length) :=
    (map_reports (fun _ _ _ => rfl) directory halos).trans (map_innerCount each)
  have inner : (reports directory halos).map PartReport.innerEdges =
      halos.map Halo.innerEdgeCount := map_reports (fun _ _ _ => rfl) directory halos
  have ranges := flatMap_ownVertices each vertices nonempty
  have written := map_parentEdges each
  constructor
  · rw [map_part_reports, length]
  · exact ranges
  · exact length_ownVertices each vertices nonempty
  · exact counts
  · rw [counts, ← List.length_flatMap, ranges, List.length_range]
  · rw [inner, covered.innerEdgeCount, ← rows.countP_eq, List.countP_map]
    apply List.countP_congr
    intro e he
    have source := (Graph.Reachable.frozen reachable).inside he
    rw [decide_eq_true_eq, Function.comp, decide_eq_true_eq]
    exact covered.same_part source.1
  · intro reaching halo hhalo
    obtain ⟨p, hp⟩ := List.getElem?_of_mem hhalo
    obtain ⟨q, -, surrounds⟩ := exists_surrounds each hhalo
    exact arriving_rows rows (covered.partHalo p halo hp) reaching (parentEdges_eq surrounds.lists)
  · intro one
    rw [List.flatMap_def, written, ← List.flatMap_def, ← List.map_flatMap]
    exact ((covered.edges_once one).map Edge.endpoints).trans rows
  · intro halo hhalo row hrow
    obtain ⟨p, -, surrounds⟩ := exists_surrounds each hhalo
    rw [parentEdges_eq surrounds.lists, List.mem_map] at hrow
    obtain ⟨e, he, rfl⟩ := hrow
    have taken := List.mem_of_mem_filter (surrounds.taken.subset he)
    exact rows.subset (List.mem_map_of_mem taken)

/-- What the command presents. -/
def presented (format : ReportFormat) (directory : Option String) (halos : List Halo) : String :=
  Command.present format (String.join ((reports directory halos).map PartReport.text))
    (.list ((reports directory halos).map PartReport.outline))

/-- What becomes of the files for the parts: where nothing is refused, the file of every part has the
edges of its halo. -/
structure Delivered (csv : Csv.Codec) (directory : String) (halos : List Halo) (w : MemoryHost)
    (r : Except Failure Unit) (w' : MemoryHost) : Prop where
  saved : Command.Saved directory (edgeFiles csv directory halos) w r w'
  there : r = .ok () → ∀ (p : Nat) (halo : Halo), halos[p]? = some halo →
    w'.files.read (filePath directory p) = .ok (edgeFile csv halo)

theorem exists_delivered (csv : Csv.Codec) (directory : String) (halos : List Halo)
    (w : MemoryHost) : ∃ r w',
    Command.outcome (Command.writeFiles directory (edgeFiles csv directory halos)) w = (r, w') ∧
      Delivered csv directory halos w r w' := by
  obtain ⟨r, w', run, saved⟩ :=
    Command.exists_saved directory w (apart_edgeFiles csv directory halos)
  refine ⟨r, w', run, saved, ?_⟩
  rintro rfl p halo listed
  have file : (filePath directory p, edgeFile csv halo) ∈ edgeFiles csv directory halos :=
    List.mem_map.2 ⟨(halo, p), List.mem_zipIdx_iff_getElem?.2 listed, rfl⟩
  exact saved.there _ file

/-- From its file the edges of a halo are read back. -/
theorem rowsIn_edgeFile {csv : Csv.Codec} (lawful : csv.Lawful) {halo : Halo}
    (small : ∀ row ∈ parentEdges halo, row.1 < UInt64.size ∧ row.2 < UInt64.size) :
    EdgeList.rowsIn csv EdgeList.writtenSource (edgeFile csv halo) = .ok (parentEdges halo) := by
  have paired : ((parentEdges halo).map Prod.fst).zip ((parentEdges halo).map Prod.snd) =
      parentEdges halo := (List.zip_map' ..).trans (List.map_id _)
  rw [edgeFile, EdgeList.rowsIn_write lawful (paired.symm ▸ small), paired]

end Partition

namespace Command

variable {csv : Csv.Codec} {w w' : MemoryHost} {l : EdgeList} {g : FrozenGraph}

section Partition

variable {settings : Settings} {request : PartitionRequest} {parts hops : Nat} {halos : List Halo}
  (asked : (request.parts.orElse fun () => settings.parts).getD defaultParts = parts)
  (reach : (request.hops.orElse fun () => settings.hops).getD defaultHops = hops)
  (positive : 0 < parts)
  (loaded : EdgeList.load csv request.input.source (w.files.read request.input.path) = .ok l)

include asked positive loaded

theorem outcome_partition_none (outgrown : UInt64.size ≤ l.vertexCount + 1) (format : ReportFormat) :
    outcome (partition csv settings format request) w = (.error .overflow, w) := by
  unfold partition
  simp only [asked, if_neg (Nat.ne_of_gt positive)]
  exact outcome_bind_error (outcome_loadGraph_none loaded outgrown) _

include reach

theorem outcome_partition (made : l.graph = some (.ok g))
    (cut : Partition.halos g parts hops = some (.ok halos)) (format : ReportFormat) :
    match request.outDir with
    | none => outcome (partition csv settings format request) w =
        (.ok (Partition.presented format none halos), w)
    | some directory => ∃ r w', Partition.Delivered csv directory halos w r w' ∧
        outcome (partition csv settings format request) w =
          (r.map fun () => Partition.presented format (some directory) halos, w') := by
  unfold partition
  simp only [asked, reach, if_neg (Nat.ne_of_gt positive)]
  rw [outcome_bind_ok (outcome_loadGraph loaded made), cut, outcome_bind_ok (outcome_ofCall_ok ..)]
  cases output : request.outDir with
  | none => rfl
  | some directory =>
    obtain ⟨r, w', run, delivered⟩ := Partition.exists_delivered csv directory halos w
    refine ⟨r, w', delivered, ?_⟩
    cases r with
    | ok u => exact (outcome_bind_ok run _).trans rfl
    | error f => exact outcome_bind_error run _

end Partition

/-- The parts of a loaded edge list are even ranges, and their reports and files lose no row, as long as
the counters for the vertices, one more than these, can be counted. -/
theorem partition_even (csv : Csv.Codec) {settings : Settings} {request : PartitionRequest}
    {parts hops : Nat}
    (loaded : EdgeList.load csv request.input.source (w.files.read request.input.path) = .ok l)
    (vertices : 0 < l.vertexCount)
    (asked : (request.parts.orElse fun () => settings.parts).getD defaultParts = parts)
    (reach : (request.hops.orElse fun () => settings.hops).getD defaultHops = hops)
    (positive : 0 < parts) (format : ReportFormat) :
    (l.vertexCount + 1 < UInt64.size → l.vertexCount * min parts l.vertexCount < UInt64.size →
      ∃ halos, Partition.Even l parts hops request.outDir halos ∧
        (csv.Lawful → ∀ halo ∈ halos, EdgeList.rowsIn csv EdgeList.writtenSource
          (Partition.edgeFile csv halo) = .ok (Partition.parentEdges halo)) ∧
        match request.outDir with
        | none => outcome (partition csv settings format request) w =
            (.ok (Partition.presented format none halos), w)
        | some directory => ∃ r w', Partition.Delivered csv directory halos w r w' ∧
            outcome (partition csv settings format request) w =
              (r.map fun () => Partition.presented format (some directory) halos, w')) ∧
    (UInt64.size ≤ l.vertexCount + 1 →
      outcome (partition csv settings format request) w = (.error .overflow, w)) := by
  have inside := EdgeList.inside_of_load loaded
  refine ⟨fun room word => ?_, fun outgrown =>
    outcome_partition_none asked positive loaded outgrown format⟩
  obtain ⟨g, halos, made, cut, even⟩ :=
    Partition.exists_even inside vertices positive room word hops request.outDir
  refine ⟨halos, even, fun lawful halo hhalo => ?_,
    outcome_partition asked reach positive loaded made cut format⟩
  refine Partition.rowsIn_edgeFile lawful fun row hrow => ?_
  have bounds := inside row (even.listed halo hhalo hrow)
  omega

/-- A host with a file and nothing else. -/
def hostWith (content : Bytes) : MemoryHost :=
  ⟨[], ⟨[(["e"], content)], [], []⟩, answering none none, [], []⟩

theorem read_hostWith (content : Bytes) :
    (hostWith content).files.read "e" = .ok content := by cbv

/-- The same host with an empty directory. -/
def hostWithDirectory (content : Bytes) : MemoryHost :=
  ⟨[], ⟨[(["e"], content)], [["out"]], []⟩, answering none none, [], []⟩

theorem makeAll_hostWith (content : Bytes) :
    (Directory.makeAll "out" : StateM MemoryHost _).run (hostWith content) =
      (.ok (), hostWithDirectory content) := by cbv

theorem writable_filePath {content : Bytes} {p : Nat} (hp : p < 2) :
    (hostWithDirectory content).files.Writable (Partition.filePath "out" p) := by
  have first : Partition.filePath "out" 0 = "out/part-0.csv" := by decide
  have second : Partition.filePath "out" 1 = "out/part-1.csv" := by decide
  obtain rfl | rfl : p = 0 ∨ p = 1 := by omega
  · exact first ▸ ⟨["out", "part-0.csv"], rfl, rfl⟩
  · exact second ▸ ⟨["out", "part-1.csv"], rfl, rfl⟩

/-- Five vertices, one of them without any edge, in two parts whose edges are written to a directory
that has to be made. -/
theorem partition_even_five :
    ∃ halos w', Partition.Even ⟨5, [(0, 1), (1, 2), (2, 0), (4, 1)]⟩ 2 1 (some "out") halos ∧
      outcome (partition .standard .default .text
          ⟨⟨"e", ⟨"src", "dst", none⟩⟩, none, none, some "out"⟩)
          (hostWith (Wire.text "src,dst\n0,1\n1,2\n2,0\n4,1\n")) =
        (.ok (Partition.presented .text (some "out") halos), w') ∧
      ∀ (p : Nat) (halo : Halo), halos[p]? = some halo →
        ∃ bytes, w'.files.read (Partition.filePath "out" p) = .ok bytes ∧
          EdgeList.rowsIn .standard EdgeList.writtenSource bytes =
            .ok (Partition.parentEdges halo) := by
  have parsed : EdgeList.load .standard ⟨"src", "dst", none⟩
      (.ok (Wire.text "src,dst\n0,1\n1,2\n2,0\n4,1\n")) =
        .ok ⟨5, [(0, 1), (1, 2), (2, 0), (4, 1)]⟩ := by decide
  rw [← read_hostWith] at parsed
  obtain ⟨halos, even, rows, r, w', delivered, run⟩ := (@partition_even _ _ .standard .default
    ⟨⟨"e", ⟨"src", "dst", none⟩⟩, none, none, some "out"⟩ 2 1 parsed (by decide) rfl rfl (by decide)
    .text).1 (by decide) (by decide)
  have count : halos.length = 2 := by
    have numbered := even.numbered
    rw [Partition.map_part_reports] at numbered
    simpa using congrArg List.length numbered
  have complete : r = .ok () := by
    refine delivered.saved.complete (makeAll_hostWith _) fun f hf => ?_
    obtain ⟨⟨halo, p⟩, listed, rfl⟩ := List.mem_map.1 hf
    have below := (List.getElem?_eq_some_iff.1 (List.mem_zipIdx_iff_getElem?.1 listed)).1
    exact writable_filePath (count ▸ below)
  rw [complete] at run
  refine ⟨halos, w', even, run, fun p halo listed => ?_⟩
  exact ⟨_, delivered.there complete p halo listed,
    rows Csv.Codec.standard_lawful halo (List.mem_of_getElem? listed)⟩

/-- The whole of the largest graph for which a list is loaded, in one part. -/
theorem partition_overflows :
    EdgeList.load .standard ⟨"src", "dst", none⟩
        ((hostWith (Wire.text "src,dst\n0,18446744073709551614\n")).files.read "e") =
      .ok ⟨18446744073709551615, [(0, 18446744073709551614)]⟩ ∧
    18446744073709551615 * min 1 18446744073709551615 < UInt64.size ∧
    outcome (partition .standard .default .json
        ⟨⟨"e", ⟨"src", "dst", none⟩⟩, some 1, some 1, none⟩)
        (hostWith (Wire.text "src,dst\n0,18446744073709551614\n")) =
      (.error .overflow, hostWith (Wire.text "src,dst\n0,18446744073709551614\n")) := by
  have parsed : EdgeList.load .standard ⟨"src", "dst", none⟩
      (.ok (Wire.text "src,dst\n0,18446744073709551614\n")) =
        .ok ⟨18446744073709551615, [(0, 18446744073709551614)]⟩ := by decide
  rw [← read_hostWith] at parsed
  exact ⟨parsed, by decide, @outcome_partition_none .standard _ _ .default
    ⟨⟨"e", ⟨"src", "dst", none⟩⟩, some 1, some 1, none⟩ 1 rfl (by decide) parsed (by decide) _⟩

end Command

end GraphRelay
