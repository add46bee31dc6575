import GraphRelay.Proofs.Graph.Halo
import Mathlib.Data.List.Perm.Subperm

/-!
# Halos of all parts

The halos of a partition share out the graph: every vertex is inner in the halo of its part alone,
and every edge reaches at least the halo of the part in which it ends.
-/
namespace GraphRelay

/-- No vertex and no edge, in the parent graph or locally. -/
structure Subgraph.Empty (s : Subgraph) : Prop where
  vertices : s.vertices = []
  edges : s.edges = []
  parentEdges : s.parentEdges = []
  vertexCount : s.graph.vertexCount = 0
  edgesById : s.graph.edgesById = []

theorem Subgraph.Lists.empty {s : Subgraph} {parents : List Edge} (h : s.Lists parents)
    (vertices : s.vertices = []) (none : parents = []) : s.Empty := by
  subst none
  refine ⟨vertices, h.edges, h.parentEdges_eq, ?_, List.map_eq_nil_iff.1 h.ids⟩
  rw [h.vertexCount, vertices, List.length_nil]

namespace Halo

/-- The inner vertices by parent id. -/
def ownVertices (halo : Halo) : List Nat :=
  ((halo.sub.vertices.zip halo.innerVertices).filter Prod.snd).map Prod.fst

/-- The inner edges by local id. -/
def ownEdges (halo : Halo) : List Edge :=
  ((halo.sub.parentEdges.zip halo.innerEdges).filter Prod.snd).map Prod.fst

theorem map_fst_filter_zip_map {α : Type} (p : α → Bool) (xs : List α) :
    ((xs.zip (xs.map p)).filter Prod.snd).map Prod.fst = xs.filter p := by
  induction xs with
  | nil => rfl
  | cons x xs ih =>
    rw [List.map_cons, List.zip_cons_cons, List.filter_cons, List.filter_cons]
    split
    · rw [List.map_cons, ih]
    · exact ih

variable {halo : Halo} {g : Graph} {seeds : List Nat} {hops : Nat}

theorem Surrounds.mem_ownVertices (h : halo.Surrounds g seeds hops) {v : Nat} :
    v ∈ halo.ownVertices ↔ v ∈ seeds := by
  rw [ownVertices, h.innerVertices, map_fst_filter_zip_map, List.mem_filter, h.mem_vertices,
    decide_eq_true_eq, and_iff_right_iff_imp]
  exact within_of_mem

theorem Surrounds.ownEdges_eq (h : halo.Surrounds g seeds hops) :
    halo.ownEdges = halo.sub.parentEdges.filter fun e => e.Among seeds := by
  rw [ownEdges, h.innerEdges, map_fst_filter_zip_map]

/-- The edges among the seeds are taken, however many hops are made. -/
theorem Surrounds.ownEdges_perm (h : halo.Surrounds g seeds hops) :
    halo.ownEdges.Perm (g.edges.filter fun e => e.Among seeds) := by
  have among := h.taken.filter fun e => e.Among seeds
  rw [List.filter_filter] at among
  rw [h.ownEdges_eq]
  refine among.trans (.of_eq (List.filter_congr fun e _ => ?_))
  rw [← Bool.decide_and, decide_eq_decide]
  exact and_iff_left_of_imp taken_of_among

theorem Surrounds.innerEdgeCount_eq (h : halo.Surrounds g seeds hops) :
    halo.innerEdgeCount = halo.ownEdges.length := by
  rw [innerEdgeCount, h.ownEdges_eq, h.innerEdges, ← List.countP_eq_length_filter, List.count,
    List.countP_map]
  exact List.countP_congr fun e _ => by simp

theorem Surrounds.empty (h : halo.Surrounds g [] hops) : halo.sub.Empty := by
  have far : ∀ v, ¬ Within g.edges [] hops v := by
    rintro v ⟨k, -, s, hs, -⟩
    exact List.not_mem_nil hs
  refine h.lists.empty ?_ ?_
  · exact List.eq_nil_iff_forall_not_mem.2 fun v hv => far v ((h.mem_vertices v).1 hv)
  · refine List.eq_nil_iff_forall_not_mem.2 fun e he => ?_
    obtain ⟨listed, took⟩ := List.mem_filter.1 (h.taken.mem_iff.1 he)
    exact far e.src ((of_decide_eq_true took).within listed).1

end Halo

theorem of_forall₂_range {α : Type} {R : Nat → α → Prop} {n i : Nat} {xs : List α} {x : α}
    (h : List.Forall₂ R (List.range n) xs) (hx : xs[i]? = some x) : R i x := by
  obtain ⟨hi, rfl⟩ := List.getElem?_eq_some_iff.1 hx
  have here := (List.forall₂_iff_get.1 h).2 i (h.length_eq.symm ▸ hi) hi
  simpa using here

namespace FrozenGraph

theorem mem_members {parts : List Nat} {p v : Nat} : v ∈ members parts p ↔ parts[v]? = some p := by
  rw [members, List.mem_map]
  constructor
  · rintro ⟨⟨q, i⟩, h, rfl⟩
    obtain ⟨listed, hq⟩ := List.mem_filter.1 h
    rw [← of_decide_eq_true hq]
    exact List.mem_zipIdx_iff_getElem?.1 listed
  · intro h
    exact ⟨(p, v), List.mem_filter.2 ⟨List.mem_zipIdx_iff_getElem?.2 h, decide_eq_true rfl⟩, rfl⟩

/-- The number of parts from 0 to the largest that occurs. -/
def partCount (parts : List Nat) : Nat := (parts.max?.map (· + 1)).getD 0

theorem lt_partCount {parts : List Nat} {p : Nat} (h : p ∈ parts) : p < partCount parts := by
  cases top : parts.max? with
  | none =>
    rw [List.max?_eq_none_iff.1 top] at h
    exact absurd h List.not_mem_nil
  | some m =>
    rw [partCount, top]
    exact Nat.lt_succ_of_le ((List.max?_eq_some_iff.1 top).2 p h)

theorem view_touch (g : FrozenGraph) (c d : Direction) : (g.touch c).view d = g.view d := by
  rw [touch]
  split
  · rfl
  next other =>
  simp only [view, cached, if_neg other]
  split <;> rfl

/-- Each vertex has a part, and the parts are numbered below the vertex count. -/
structure Assigned (g : FrozenGraph) (parts : List Nat) : Prop where
  length : parts.length = g.vertexCount
  lt : ∀ p ∈ parts, p < g.vertexCount

/-- What the halo of part `p` shows of the graph. -/
structure PartHalo (g : FrozenGraph) (parts : List Nat) (hops p : Nat) (halo : Halo) : Prop where
  ascending : halo.sub.vertices.Pairwise (· < ·)
  lists : halo.sub.Lists halo.sub.parentEdges
  mem_ownVertices : ∀ v, v ∈ halo.ownVertices ↔ parts[v]? = some p
  unassigned : p ∉ parts → halo.sub.Empty
  arriving : 0 < hops →
    (g.edges.filter fun e => parts[e.dst]? = some p).Subperm halo.sub.parentEdges
  arriving_only : hops = 1 →
    halo.sub.parentEdges.Perm (g.edges.filter fun e => parts[e.dst]? = some p)
  innerVertices : halo.innerVertices = halo.sub.vertices.map fun v => decide (parts[v]? = some p)
  innerEdges : halo.innerEdges = halo.sub.parentEdges.map fun e =>
    decide (parts[e.src]? = some p ∧ parts[e.dst]? = some p)

/-- The halos of the parts own every vertex and every edge within a part once. -/
structure Covered (g : FrozenGraph) (parts : List Nat) (hops : Nat) (halos : List Halo) : Prop where
  length : halos.length = partCount parts
  partHalo : ∀ (p : Nat) (halo : Halo), halos[p]? = some halo → g.PartHalo parts hops p halo
  owner : ∀ v < g.vertexCount,
    ∃! p : Nat, ∃ halo : Halo, halos[p]? = some halo ∧ v ∈ halo.ownVertices
  edges_once : hops = 1 → (halos.flatMap fun halo => halo.sub.parentEdges).Perm g.edges
  inner_once : (halos.flatMap Halo.ownEdges).Perm
    (g.edges.filter fun e => parts[e.src]? = parts[e.dst]?)
  innerEdgeCount : (halos.map Halo.innerEdgeCount).sum =
    g.edges.countP fun e => parts[e.src]? = parts[e.dst]?

section Parts

variable {g : FrozenGraph} {parts : List Nat} {hops : Nat} {halos : List Halo}

theorem exists_haloParts (h : g.Reachable) (assigned : g.Assigned parts) (hops : Nat) :
    ∃ halos, g.haloParts parts hops = .ok halos ∧
      List.Forall₂ (fun p halo => halo.Surrounds (.frozen g) (members parts p) hops)
        (List.range (partCount parts)) halos := by
  have touched : (g.touch .incoming).Reachable := h.after (.query (.view .incoming))
  have same : (g.touch .incoming).edges = g.edges := by
    rw [edges, edges, view_touch]
  have count : (g.touch .incoming).vertexCount = g.vertexCount :=
    congrArg Adjacency.vertexCount (touch_primary g .incoming).1
  have each : ∀ p, ∃ halo,
      (Graph.frozen (g.touch .incoming)).halo (members parts p) hops = .ok halo ∧
      halo.Surrounds (.frozen g) (members parts p) hops := by
    intro p
    have inside : ∀ v ∈ members parts p, v < (Graph.frozen (g.touch .incoming)).vertexCount := by
      intro v hv
      have listed := (List.getElem?_eq_some_iff.1 (mem_members.1 hv)).1
      rwa [assigned.length, ← count] at listed
    obtain ⟨halo, made, surrounds⟩ := Graph.exists_halo (.frozen touched) inside
    exact ⟨halo, made, surrounds.of_edges_perm (.of_eq same)⟩
  choose value made surrounds using each
  rw [haloParts, if_neg (not_not_intro assigned.length)]
  cases largest : parts.max? with
  | none =>
    refine ⟨[], rfl, ?_⟩
    rw [partCount, largest]
    exact .nil
  | some top =>
    have below := assigned.lt top (List.max?_eq_some_iff.1 largest).1
    rw [← assigned.length] at below
    refine ⟨(List.range (top + 1)).map value, ?_, ?_⟩
    · dsimp only
      rw [if_neg (Nat.not_le.2 below)]
      exact mapM_ok fun p _ => made p
    · rw [partCount, largest, List.forall₂_map_right_iff]
      exact List.forall₂_same.2 fun p _ => surrounds p

theorem among_members {p : Nat} {e : Edge} :
    e.Among (members parts p) ↔ parts[e.src]? = some p ∧ parts[e.dst]? = some p := by
  rw [Edge.Among, mem_members, mem_members]

theorem partHalo_of_surrounds {p : Nat} {halo : Halo}
    (h : halo.Surrounds (.frozen g) (members parts p) hops) : g.PartHalo parts hops p halo where
  ascending := h.ascending
  lists := h.lists
  mem_ownVertices _ := h.mem_ownVertices.trans mem_members
  unassigned none := by
    have empty : members parts p = [] :=
      List.eq_nil_iff_forall_not_mem.2 fun v hv => none (List.mem_of_getElem? (mem_members.1 hv))
    rw [empty] at h
    exact h.empty
  arriving positive := by
    obtain ⟨later, rfl⟩ := Nat.exists_eq_add_of_lt positive
    have seeded : (g.edges.filter fun e => parts[e.dst]? = some p).Sublist
        (g.edges.filter fun e => Taken g.edges (members parts p) (0 + later + 1) e) := by
      refine List.monotone_filter_right _ fun e hd => ?_
      exact decide_eq_true (within_of_mem (mem_members.2 (of_decide_eq_true hd)))
    exact seeded.subperm.trans h.taken.symm.subperm
  arriving_only one := by
    subst one
    refine h.taken.trans (.of_eq (List.filter_congr fun e _ => ?_))
    rw [decide_eq_decide, Taken, within_zero, mem_members]
  innerVertices := by
    rw [h.innerVertices]
    exact List.map_congr_left fun v _ => decide_eq_decide.2 mem_members
  innerEdges := by
    rw [h.innerEdges]
    exact List.map_congr_left fun e _ => decide_eq_decide.2 among_members

theorem exists_part (assigned : g.Assigned parts) {v : Nat} (hv : v < g.vertexCount) :
    ∃ p < partCount parts, parts[v]? = some p := by
  rw [← assigned.length] at hv
  exact ⟨parts[v], lt_partCount (List.getElem_mem hv), List.getElem?_eq_getElem hv⟩

theorem covered_of_surrounds (h : g.Reachable) (assigned : g.Assigned parts)
    (each : List.Forall₂ (fun p halo => halo.Surrounds (.frozen g) (members parts p) hops)
      (List.range (partCount parts)) halos) : g.Covered parts hops halos := by
  have length : halos.length = partCount parts := by
    rw [← each.length_eq, List.length_range]
  have parts_of_edge : ∀ e ∈ g.edges, (∃ p < partCount parts, parts[e.src]? = some p) ∧
      ∃ p < partCount parts, parts[e.dst]? = some p := by
    intro e he
    have inside := (Graph.Reachable.frozen h).inside he
    exact ⟨exists_part assigned inside.1, exists_part assigned inside.2⟩
  have inner : (halos.flatMap Halo.ownEdges).Perm
      (g.edges.filter fun e => parts[e.src]? = parts[e.dst]?) := by
    have apart : ∀ e ∈ g.edges, ∀ p q, e.Among (members parts p) → e.Among (members parts q) →
        p = q := by
      intro e _ p q hp hq
      exact Option.some.inj ((among_members.1 hp).1.symm.trans (among_members.1 hq).1)
    have all := flatMap_perm_filter List.nodup_range apart
      (each.imp fun p halo surrounds => surrounds.ownEdges_perm)
    refine all.trans (.of_eq (List.filter_congr fun e he => ?_))
    rw [decide_eq_decide]
    simp only [List.mem_range, among_members]
    constructor
    · rintro ⟨p, -, hs, hd⟩
      exact hs.trans hd.symm
    · intro shared
      obtain ⟨p, hp, hd⟩ := (parts_of_edge e he).2
      exact ⟨p, hp, shared.trans hd, hd⟩
  refine ⟨length, fun p halo hp => partHalo_of_surrounds (of_forall₂_range each hp), ?_, ?_, inner,
    ?_⟩
  · intro v hv
    obtain ⟨p, hp, own⟩ := exists_part assigned hv
    rw [← length] at hp
    have shown : ∀ (q : Nat) (halo : Halo), halos[q]? = some halo →
        (v ∈ halo.ownVertices ↔ parts[v]? = some q) := fun q halo hq =>
      (partHalo_of_surrounds (of_forall₂_range each hq)).mem_ownVertices v
    refine ⟨p, ⟨halos[p], List.getElem?_eq_getElem hp,
      (shown p _ (List.getElem?_eq_getElem hp)).2 own⟩, ?_⟩
    rintro q ⟨halo, hq, hv⟩
    exact Option.some.inj (((shown q halo hq).1 hv).symm.trans own)
  · intro one
    have all := flatMap_perm_filter (p := fun p (e : Edge) => parts[e.dst]? = some p)
      List.nodup_range (fun e _ p q hp hq => Option.some.inj (hp.symm.trans hq))
      (each.imp fun p halo surrounds => (partHalo_of_surrounds surrounds).arriving_only one)
    refine all.trans (.of_eq (List.filter_eq_self.2 fun e he => ?_))
    obtain ⟨p, hp, hd⟩ := (parts_of_edge e he).2
    exact decide_eq_true ⟨p, List.mem_range.2 hp, hd⟩
  · rw [List.countP_eq_length_filter, ← inner.length_eq, List.length_flatMap]
    congr 1
    refine List.map_congr_left fun halo hhalo => ?_
    obtain ⟨p, hp⟩ := List.getElem?_of_mem hhalo
    exact (of_forall₂_range each hp).innerEdgeCount_eq

theorem haloParts_refused (unassigned : ¬ g.Assigned parts) :
    ∃ f, g.haloParts parts hops = .error f ∧ f.kind = .precondition := by
  rw [haloParts]
  split
  · exact ⟨_, rfl, rfl⟩
  next length =>
  rw [not_not] at length
  split
  next empty =>
    rw [List.max?_eq_none_iff] at empty
    exact absurd ⟨length, by simp [empty]⟩ unassigned
  next top largest =>
  split
  · exact ⟨_, rfl, rfl⟩
  next below =>
  have most := (List.max?_eq_some_iff.1 largest).2
  refine absurd ⟨length, fun p hp => ?_⟩ unassigned
  rw [← length]
  exact Nat.lt_of_le_of_lt (most p hp) (Nat.lt_of_not_le below)

/-- The halos of all parts exist exactly for an assignment of every vertex, and they share the graph
out. -/
theorem haloParts_covered (h : g.Reachable) (parts : List Nat) (hops : Nat) :
    (g.Assigned parts → ∃ halos, g.haloParts parts hops = .ok halos ∧ g.Covered parts hops halos) ∧
    (¬ g.Assigned parts → ∃ f, g.haloParts parts hops = .error f ∧ f.kind = .precondition) := by
  constructor
  · intro assigned
    obtain ⟨halos, made, each⟩ := exists_haloParts h assigned hops
    exact ⟨halos, made, covered_of_surrounds h assigned each⟩
  · exact haloParts_refused

/-- Parts 0 and 2 of a chain that ends in a cycle, with part 1 left empty, and a part that is
numbered as high as there are vertices. -/
theorem haloParts_covered_five :
    (∃ halos, haloParts ⟨⟨[[⟨2, 0⟩], [⟨2, 1⟩], [⟨0, 4⟩], [⟨1, 2⟩], [⟨3, 3⟩]], true⟩, .outgoing,
        none, false, 64⟩ [0, 0, 2, 2, 2] 1 = .ok halos ∧
      Covered ⟨⟨[[⟨2, 0⟩], [⟨2, 1⟩], [⟨0, 4⟩], [⟨1, 2⟩], [⟨3, 3⟩]], true⟩, .outgoing, none, false,
        64⟩ [0, 0, 2, 2, 2] 1 halos ∧
      halos.length = 3 ∧ ∀ halo, halos[1]? = some halo → halo.sub.Empty) ∧
    ∃ f, haloParts ⟨⟨[[⟨2, 0⟩], [⟨2, 1⟩], [⟨0, 4⟩], [⟨1, 2⟩], [⟨3, 3⟩]], true⟩, .outgoing, none,
      false, 64⟩ [0, 0, 2, 2, 5] 1 = .error f ∧ f.kind = .precondition := by
  have adjacency : Adjacency.Reachable
      ⟨[[⟨2, 0⟩], [⟨2, 1⟩], [⟨0, 4⟩], [⟨1, 2⟩], [⟨3, 3⟩]], true⟩ :=
    Adjacency.reachable_iff.2 ⟨by decide, by decide⟩
  have reachable := Reachable.ofAdjacency adjacency .outgoing (some false)
  constructor
  · obtain ⟨halos, made, covered⟩ :=
      (haloParts_covered reachable [0, 0, 2, 2, 2] 1).1 ⟨by decide, by decide⟩
    exact ⟨halos, made, covered, covered.length,
      fun halo listed => (covered.partHalo 1 halo listed).unassigned (by decide)⟩
  · refine (haloParts_covered reachable [0, 0, 2, 2, 5] 1).2 fun assigned => ?_
    exact absurd (assigned.lt 5 (by decide)) (by decide)

end Parts

end FrozenGraph

end GraphRelay
