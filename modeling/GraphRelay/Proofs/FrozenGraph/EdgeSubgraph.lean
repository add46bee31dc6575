import GraphRelay.Proofs.Adjacency.Indexing
import GraphRelay.Proofs.FirstOccurrence
import GraphRelay.Proofs.FrozenGraph.ParentEdges
import GraphRelay.Proofs.Graph.Edges

/-!
# Subgraphs of chosen edges

Chosen by their ids, edges are looked up in a hash map and their endpoints gathered in two arrays. The
endpoints are then numbered in place, first the sources and then the destinations: a place that was
passed holds the number of its vertex, a place ahead still the vertex, and the vertices met so far are
numbered in the order in which they turned up.
-/
namespace GraphRelay

/-- The vertices met so far in order, and the number of each. -/
structure Numbering where
  index : Std.HashMap Nat Nat
  order : List Nat

namespace Numbering

def empty : Numbering := ⟨∅, []⟩

/-- The number of a vertex, the next one if it has none yet. -/
def number (s : Numbering) (v : Nat) : Numbering × Nat :=
  match s.index[v]? with
  | some i => (s, i)
  | none => (⟨s.index.insert v s.index.size, s.order ++ [v]⟩, s.index.size)

/-- Replaces the vertex at a place by its number, if there is such a place. -/
def renumberAt? (state : Numbering × List Nat) (place : Nat) :
    Option (Numbering × List Nat) := do
  let (s, cells) := state
  let v ← cells[place]?
  let (s, i) := s.number v
  pure (s, cells.set place i)

def renumber? (s : Numbering) (cells : List Nat) : Option (Numbering × List Nat) :=
  (List.range cells.length).foldlM renumberAt? (s, cells)

/-- `met` was gone through. -/
structure Met (s : Numbering) (met : List Nat) : Prop where
  order : s.order = met.eraseDups
  index : Indexes s.index s.order

theorem met_empty : empty.Met [] := ⟨rfl, indexes_empty⟩

variable {s : Numbering} {met : List Nat}

theorem Met.number (h : s.Met met) (v : Nat) :
    (s.number v).1.Met (met ++ [v]) ∧ (s.number v).2 = (met ++ [v]).eraseDups.idxOf v := by
  rw [Numbering.number]
  by_cases old : v ∈ met
  · have listed : v ∈ s.order := by rw [h.order]; exact List.mem_eraseDups.2 old
    rw [h.index.getElem?_of_mem listed]
    refine ⟨⟨?_, h.index⟩, ?_⟩
    · rw [eraseDups_concat, if_pos old, h.order]
    · rw [eraseDups_concat, if_pos old, h.order]
  · have absent : v ∉ s.order := by rw [h.order, List.mem_eraseDups]; exact old
    rw [h.index.getElem?, List.idxOf?_eq_none_iff.2 absent]
    have grown : s.order ++ [v] = (met ++ [v]).eraseDups := by
      rw [eraseDups_concat, if_neg old, h.order]
    refine ⟨⟨grown, ?_⟩, ?_⟩
    · rw [h.index.size]
      exact h.index.insert absent
    · rw [← grown, List.idxOf_append_of_notMem absent, List.idxOf_cons_self, h.index.size]
      rfl

/-- With the places of `done` passed and those of `todo` ahead, all places are passed in the end. -/
theorem foldlM_renumberAt? {done todo : List Nat} (h : s.Met (met ++ done)) :
    ∃ s' : Numbering, s'.Met (met ++ (done ++ todo)) ∧
      (List.range' done.length todo.length).foldlM renumberAt?
          (s, done.map (met ++ (done ++ todo)).eraseDups.idxOf ++ todo) =
        some (s', (done ++ todo).map (met ++ (done ++ todo)).eraseDups.idxOf) := by
  induction todo generalizing s done with
  | nil => exact ⟨s, by simpa using h, by simp⟩
  | cons v todo ih =>
    obtain ⟨next, place⟩ := h.number v
    rw [List.append_assoc] at next
    obtain ⟨s', last, passed⟩ := ih next
    have whole : done ++ [v] ++ todo = done ++ v :: todo := by simp
    rw [whole] at last passed
    refine ⟨s', last, ?_⟩
    have numbered : (s.number v).2 = (met ++ (done ++ v :: todo)).eraseDups.idxOf v := by
      have met' : v ∈ met ++ done ++ [v] := by simp
      have later := idxOf_eraseDups_append met' todo
      rw [place, ← later, List.append_assoc, List.append_assoc, List.singleton_append]
    have cell : (done.map (met ++ (done ++ v :: todo)).eraseDups.idxOf ++ v :: todo)[done.length]? =
        some v := by simp
    have written : (done.map (met ++ (done ++ v :: todo)).eraseDups.idxOf ++ v :: todo).set
        done.length (s.number v).2 =
        (done ++ [v]).map (met ++ (done ++ v :: todo)).eraseDups.idxOf ++ todo := by
      rw [List.set_append_right _ _ (by simp), numbered]
      simp
    rw [List.length_append, List.length_singleton] at passed
    rw [List.length_cons, List.range'_succ, List.foldlM_cons, renumberAt?]
    simp only [cell, Option.bind_eq_bind, Option.bind_some, Option.pure_def, written]
    exact passed

theorem Met.renumber? (h : s.Met met) (cells : List Nat) :
    ∃ s' : Numbering, s'.Met (met ++ cells) ∧
      s.renumber? cells = some (s', cells.map (met ++ cells).eraseDups.idxOf) := by
  have h' : s.Met (met ++ []) := by rwa [List.append_nil]
  rw [Numbering.renumber?, List.range_eq_range']
  exact @foldlM_renumberAt? s met [] cells h'

end Numbering

namespace FrozenGraph

/-- The endpoints by id; of several edges with one id the last stays. -/
def indexEdges (srcs dsts ids : List Nat) : Std.HashMap Nat (Nat × Nat) :=
  ((srcs.zip dsts).zip ids).foldl (fun index (ends, id) => index.insert id ends) ∅

/-- Gathers the endpoints of edges behind those gathered before; the first id that is repeated or
missing decides the fault. -/
def gatherEdges (index : Std.HashMap Nat (Nat × Nat)) (seen : Std.HashSet Nat)
    (srcs dsts : List Nat) : List Nat → Except Fault (List Nat × List Nat)
  | [] => .ok (srcs, dsts)
  | id :: rest =>
    match seen.containsThenInsert id with
    | (true, _) => .error (.repeatedEdge id)
    | (false, seen) =>
      match index[id]? with
      | none => .error (.missingEdge id)
      | some (src, dst) => gatherEdges index seen (srcs ++ [src]) (dsts ++ [dst]) rest

/-- The parent vertices of the subgraph, and the endpoints by their numbers. -/
def localEnds? (g : FrozenGraph) (keepVertices : Bool) (srcs dsts : List Nat) :
    Option (List Nat × List Nat × List Nat) :=
  if keepVertices then some (List.range g.vertexCount, srcs, dsts)
  else do
    let (s, srcs) ← Numbering.empty.renumber? srcs
    let (s, dsts) ← s.renumber? dsts
    pure (s.order, srcs, dsts)

/-- The subgraph of the edges `ids` from the compressed arrays; nothing where a bound would be
passed. -/
def ofEdges? (g : FrozenGraph) (ids : List Nat) (keepVertices : Bool) :
    Option (Except Fault Subgraph) := do
  let (rows, cols, names) ← (g.view .outgoing).arrays.coordinates?
  match gatherEdges (indexEdges rows cols names) ∅ [] [] ids with
  | .error f => pure (.error f)
  | .ok (srcs, dsts) =>
    let (vertices, srcs, dsts) ← g.localEnds? keepVertices srcs dsts
    match ofCoordinates vertices.length srcs dsts none (some g.multigraph) with
    | .error f => pure (.error f)
    | .ok sub => pure (.ok ⟨sub, vertices, ids⟩)

section Gathering

theorem getElem?_foldl_insert (edges : List Edge) (index : Std.HashMap Nat (Nat × Nat)) (id : Nat) :
    (edges.foldl (fun index e => index.insert e.id (e.src, e.dst)) index)[id]? =
      ((edgeById? edges id).map fun e => (e.src, e.dst)).or index[id]? := by
  induction edges generalizing index with
  | nil => rfl
  | cons e edges ih =>
    rw [List.foldl_cons, ih, Std.HashMap.getElem?_insert, edgeById?, edgeById?, List.reverse_cons,
      List.find?_append]
    cases List.find? (fun e => decide (e.id = id)) edges.reverse with
    | some later => rfl
    | none => by_cases same : e.id = id <;> simp [same]

theorem getElem?_indexEdges (edges : List Edge) (id : Nat) :
    (indexEdges (edges.map Edge.src) (edges.map Edge.dst) (edges.map Edge.id))[id]? =
      (edgeById? edges id).map fun e => (e.src, e.dst) := by
  have zipped : ((edges.map Edge.src).zip (edges.map Edge.dst)).zip (edges.map Edge.id) =
      edges.map fun e => ((e.src, e.dst), e.id) := by
    rw [List.zip_map', List.zip_map']
  rw [indexEdges, zipped, List.foldl_map, getElem?_foldl_insert, Std.HashMap.getElem?_empty,
    Option.or_none]

/-- Edges are gathered from the map as they are chosen from the list. -/
theorem gatherEdges_eq {index : Std.HashMap Nat (Nat × Nat)} {edges : List Edge}
    (indexed : ∀ id : Nat, index[id]? = (edgeById? edges id).map fun e => (e.src, e.dst))
    {seen : Std.HashSet Nat} {met : List Nat} (same : ∀ id, seen.contains id = met.contains id)
    (srcs dsts ids : List Nat) : gatherEdges index seen srcs dsts ids =
      (chooseEdges edges met ids).map fun chosen =>
        (srcs ++ chosen.map Edge.src, dsts ++ chosen.map Edge.dst) := by
  induction ids generalizing seen met srcs dsts with
  | nil => simp [gatherEdges, chooseEdges, Except.map]
  | cons id ids ih =>
    have old := Std.HashSet.containsThenInsert_fst (m := seen) (k := id)
    have grown := Std.HashSet.containsThenInsert_snd (m := seen) (k := id)
    rw [gatherEdges, chooseEdges]
    generalize seen.containsThenInsert id = both at old grown
    obtain ⟨wasSeen, larger⟩ := both
    dsimp only at old grown
    subst old grown
    rw [same id]
    cases met.contains id with
    | true => rfl
    | false =>
      have same' : ∀ other, (seen.insert id).contains other = (id :: met).contains other := by
        intro other
        rw [Std.HashSet.contains_insert, same, List.contains_cons, BEq.comm]
      dsimp only
      rw [indexed]
      cases edgeById? edges id with
      | none => rfl
      | some e =>
        rw [Option.map_some]
        dsimp only
        rw [ih same', if_neg Bool.false_ne_true]
        cases chooseEdges edges (id :: met) ids with
        | error f => rfl
        | ok chosen => simp [Except.map]

end Gathering

section Choosing

variable {edges : List Edge} {id : Nat}

theorem edgeById?_eq_some {e : Edge} (h : edgeById? edges id = some e) : e ∈ edges ∧ e.id = id := by
  rw [edgeById?] at h
  exact ⟨List.mem_reverse.1 (List.mem_of_find?_eq_some h), by simpa using List.find?_some h⟩

theorem edgeById?_eq_none (h : edgeById? edges id = none) : ¬∃ e ∈ edges, e.id = id := by
  rw [edgeById?, List.find?_eq_none] at h
  rintro ⟨e, he, same⟩
  exact h e (List.mem_reverse.2 he) (decide_eq_true same)

/-- What a selection of edges is refused for. -/
def SelectionRefused (edges : List Edge) : List Nat → Fault → Prop :=
  RefusedFor (fun id => ∃ e ∈ edges, e.id = id) Fault.missingEdge Fault.repeatedEdge

theorem chooseEdges_after {before : List Nat} (found : ∀ id ∈ before, ∃ e ∈ edges, e.id = id)
    (nodup : before.Nodup) (rest : List Nat) :
    (∃ chosen, chooseEdges edges before.reverse rest = .ok chosen ∧
      chosen.map Edge.id = rest ∧ (∀ e ∈ chosen, e ∈ edges) ∧
      (∀ id ∈ before ++ rest, ∃ e ∈ edges, e.id = id) ∧ (before ++ rest).Nodup) ∨
    ∃ f, chooseEdges edges before.reverse rest = .error f ∧
      SelectionRefused edges (before ++ rest) f := by
  induction rest generalizing before with
  | nil => exact .inl ⟨[], rfl, rfl, by simp, by simpa using found, by simpa using nodup⟩
  | cons id rest ih =>
    rw [chooseEdges, List.contains_reverse]
    split
    next old => exact .inr ⟨_, rfl, .again rfl found nodup (by simpa using old)⟩
    next new =>
    cases named : edgeById? edges id with
    | none => exact .inr ⟨_, rfl, .bad rfl found nodup (edgeById?_eq_none named)⟩
    | some e =>
      have own := edgeById?_eq_some named
      have found' : ∀ i ∈ before ++ [id], ∃ e ∈ edges, e.id = i := by
        rw [List.forall_mem_append, List.forall_mem_singleton]
        exact ⟨found, e, own⟩
      have later := ih found' (nodup_concat nodup (by simpa using new))
      simp only [List.reverse_append, List.reverse_singleton, List.singleton_append,
        List.append_assoc] at later
      rcases later with ⟨chosen, ok, named, mem, all⟩ | ⟨f, failed, refused⟩
      · refine .inl ⟨e :: chosen, by rw [ok]; rfl, ?_, List.forall_mem_cons.2 ⟨own.1, mem⟩, all⟩
        rw [List.map_cons, own.2, named]
      · exact .inr ⟨f, by rw [failed]; rfl, refused⟩

/-- Edges are found exactly when their ids are pairwise distinct and all exist. -/
theorem chooseEdges_cases (edges : List Edge) (ids : List Nat) :
    (∃ chosen, chooseEdges edges [] ids = .ok chosen ∧
      chosen.map Edge.id = ids ∧ (∀ e ∈ chosen, e ∈ edges) ∧
      (∀ id ∈ ids, ∃ e ∈ edges, e.id = id) ∧ ids.Nodup) ∨
    ∃ f, chooseEdges edges [] ids = .error f ∧ SelectionRefused edges ids f :=
  chooseEdges_after (List.forall_mem_nil _) List.nodup_nil ids

end Choosing

/-- The parent vertices of the subgraph of chosen edges. -/
def keptVertices (g : FrozenGraph) (keepVertices : Bool) (srcs dsts : List Nat) : List Nat :=
  if keepVertices then List.range g.vertexCount else (srcs ++ dsts).eraseDups

variable {g : FrozenGraph}

theorem localEnds?_eq (keepVertices : Bool) {srcs dsts : List Nat}
    (inside : ∀ v ∈ srcs ++ dsts, v < g.vertexCount) :
    g.localEnds? keepVertices srcs dsts =
      let vertices := g.keptVertices keepVertices srcs dsts
      some (vertices, srcs.map vertices.idxOf, dsts.map vertices.idxOf) := by
  cases keepVertices with
  | true =>
    have same : ∀ vs : List Nat, (∀ v ∈ vs, v < g.vertexCount) →
        vs.map (List.range g.vertexCount).idxOf = vs := by
      intro vs hvs
      refine (List.map_congr_left fun v hv => ?_).trans (List.map_id vs)
      have place := (List.nodup_range (n := g.vertexCount)).idxOf_getElem v
        (by simpa using hvs v hv)
      simpa using place
    rw [List.forall_mem_append] at inside
    simp [localEnds?, keptVertices, same _ inside.1, same _ inside.2]
  | false =>
    obtain ⟨s, first, sources⟩ := Numbering.met_empty.renumber? srcs
    obtain ⟨s', second, destinations⟩ := first.renumber? dsts
    rw [List.nil_append] at sources second destinations
    have kept : srcs.map srcs.eraseDups.idxOf = srcs.map (srcs ++ dsts).eraseDups.idxOf :=
      List.map_congr_left fun v hv => (idxOf_eraseDups_append hv dsts).symm
    simp [localEnds?, keptVertices, sources, destinations, second.order, kept]

end FrozenGraph

/-- A subgraph of chosen edges: local edge `i` stands for an edge of the graph with id `ids[i]`. -/
structure Subgraph.SelectedFrom (s : Subgraph) (g : FrozenGraph) (ids : List Nat)
    (keepVertices : Bool) : Prop where
  edges : s.edges = ids
  multigraph : s.graph.multigraph = g.multigraph
  lists : s.Lists s.parentEdges
  parents : ∀ e ∈ s.parentEdges, e ∈ g.edges
  allVertices : keepVertices = true → s.vertices = List.range g.vertexCount
  foundVertices : keepVertices = false →
    Discovers s.vertices (s.parentEdges.map Edge.src ++ s.parentEdges.map Edge.dst)

namespace FrozenGraph

variable {g : FrozenGraph} {ids : List Nat} {chosen : List Edge}

theorem Reachable.inside (h : g.Reachable) {e : Edge} (he : e ∈ g.edges) :
    e.src < g.vertexCount ∧ e.dst < g.vertexCount :=
  (Graph.Reachable.frozen h).inside he

theorem exists_selected (h : g.Reachable) (found : chooseEdges g.edges [] ids = .ok chosen)
    (named : chosen.map Edge.id = ids) (mem : ∀ e ∈ chosen, e ∈ g.edges) (keepVertices : Bool) :
    ∃ s, g.ofEdges ids keepVertices = .ok s ∧ s.SelectedFrom g ids keepVertices := by
  have inside : ∀ e ∈ chosen,
      e.src ∈ g.keptVertices keepVertices (chosen.map Edge.src) (chosen.map Edge.dst) ∧
        e.dst ∈ g.keptVertices keepVertices (chosen.map Edge.src) (chosen.map Edge.dst) := by
    intro e he
    cases keepVertices with
    | true => simpa [keptVertices] using h.inside (mem e he)
    | false =>
      simp only [keptVertices, Bool.false_eq_true, if_false, List.mem_eraseDups, List.mem_append]
      exact ⟨.inl (List.mem_map_of_mem he), .inr (List.mem_map_of_mem he)⟩
  obtain ⟨sub, made, lists⟩ := lists_positions inside (some g.multigraph)
  rw [named] at lists
  have parents := lists.parentEdges_eq
  refine ⟨⟨sub, g.keptVertices keepVertices (chosen.map Edge.src) (chosen.map Edge.dst), ids⟩,
    ?_, rfl, ?_, ?_, ?_, ?_, ?_⟩
  · rw [ofEdges, found]
    simp only [List.map_map, Function.comp_def]
    rw [← keptVertices, made]
  · obtain ⟨a, -, rfl⟩ := ofCoordinates_eq_ok made
    rfl
  · rwa [parents]
  · rwa [parents]
  · rintro rfl
    rfl
  · rintro rfl
    rw [parents]
    exact discovers_eraseDups _

theorem ofEdges?_eq (h : g.Reachable) (ids : List Nat) (keepVertices : Bool) :
    g.ofEdges? ids keepVertices = some (g.ofEdges ids keepVertices) := by
  have coordinates : (g.view .outgoing).arrays.coordinates? =
      some (g.edges.map Edge.src, g.edges.map Edge.dst, g.edges.map Edge.id) := by
    rw [Adjacency.coordinates?_arrays, edges, List.map_map, List.map_map, List.map_map]
    rfl
  have unseen : ∀ id, (∅ : Std.HashSet Nat).contains id = ([] : List Nat).contains id := by simp
  have gathered := gatherEdges_eq (getElem?_indexEdges g.edges) unseen [] [] ids
  simp only [ofEdges?, coordinates, Option.bind_eq_bind, Option.bind_some, gathered]
  rcases chooseEdges_cases g.edges ids with ⟨chosen, ok, -, mem, -⟩ | ⟨f, failed, -⟩
  · have inside : ∀ v ∈ chosen.map Edge.src ++ chosen.map Edge.dst, v < g.vertexCount := by
      rw [List.forall_mem_append, List.forall_mem_map, List.forall_mem_map]
      exact ⟨fun e he => (h.inside (mem e he)).1, fun e he => (h.inside (mem e he)).2⟩
    rw [ok, Except.map, List.nil_append, List.nil_append]
    dsimp only
    rw [localEnds?_eq keepVertices inside, ofEdges, ok]
    dsimp only [Option.bind_some]
    rw [← keptVertices]
    split <;> simp_all
  · rw [failed, ofEdges, failed]
    rfl

theorem ofEdges_cases (h : g.Reachable) (ids : List Nat) (keepVertices : Bool) :
    (∃ s, g.ofEdges ids keepVertices = .ok s ∧
      ((∀ id ∈ ids, ∃ e ∈ g.edges, e.id = id) ∧ ids.Nodup) ∧ s.SelectedFrom g ids keepVertices) ∨
    ∃ f, g.ofEdges ids keepVertices = .error f ∧
      ¬((∀ id ∈ ids, ∃ e ∈ g.edges, e.id = id) ∧ ids.Nodup) ∧ SelectionRefused g.edges ids f := by
  rcases chooseEdges_cases g.edges ids with
    ⟨chosen, ok, named, mem, all⟩ | ⟨f, failed, refused⟩
  · obtain ⟨s, made, selected⟩ := exists_selected h ok named mem keepVertices
    exact .inl ⟨s, made, all, selected⟩
  · exact .inr ⟨f, by rw [ofEdges, failed], refused.not_all, refused⟩

/-- Edges are selected exactly when their ids are pairwise distinct and all exist, and the subgraph
has them in the order of the selection. Its vertices are all or, where only endpoints stay, those of
the sources and then of the destinations as they turn up. Gathered from the compressed arrays by a
hash map and numbered in place, it comes out the same. -/
theorem ofEdges_selects (h : g.Reachable) (ids : List Nat) (keepVertices : Bool) :
    ((∃ s, g.ofEdges ids keepVertices = .ok s) ↔
      (∀ id ∈ ids, ∃ e ∈ g.edges, e.id = id) ∧ ids.Nodup) ∧
    (∀ s, g.ofEdges ids keepVertices = .ok s → s.SelectedFrom g ids keepVertices) ∧
    (∀ f, g.ofEdges ids keepVertices = .error f → SelectionRefused g.edges ids f) ∧
    g.ofEdges? ids keepVertices = some (g.ofEdges ids keepVertices) := by
  have decided := decided_of_cases (ofEdges_cases h ids keepVertices)
  exact ⟨decided.1, decided.2.1, decided.2.2, ofEdges?_eq h ids keepVertices⟩

/-- Of four vertices the selected edges meet 2 and 0, in this order; nothing is selected twice. -/
theorem ofEdges_selects_loop :
    ∃ g s, ofArrays [0, 1, 1, 2, 3] [2, 2, 0] [9, 5, 2] .outgoing none = .ok g ∧
      g.ofEdges [5, 9] false = .ok s ∧ s.SelectedFrom g [5, 9] false ∧ s.vertices = [2, 0] ∧
      s.graph.primary.rows = [[⟨0, 0⟩], [⟨0, 1⟩]] ∧
      ¬∃ s, g.ofEdges [5, 9, 5] false = .ok s := by
  have reachable : Reachable
      (ofAdjacency ⟨[[⟨2, 9⟩], [], [⟨2, 5⟩], [⟨0, 2⟩]], true⟩ .outgoing none) :=
    .ofAdjacency (Adjacency.reachable_iff.2 ⟨by decide, by decide⟩) .outgoing none
  obtain ⟨-, selected, -⟩ := ofEdges_selects reachable [5, 9] false
  obtain ⟨succeeds, -⟩ := ofEdges_selects reachable [5, 9, 5] false
  exact ⟨_, _, rfl, rfl, selected _ rfl, rfl, rfl, fun ok => absurd (succeeds.1 ok).2 (by decide)⟩

end FrozenGraph

end GraphRelay
