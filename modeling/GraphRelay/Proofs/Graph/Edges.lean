import GraphRelay.Graph.Basic
import GraphRelay.Proofs.EditableGraph.Listing
import GraphRelay.Proofs.FrozenGraph.Cache
import GraphRelay.Proofs.Traversal

/-!
# The edges of a graph

The rows of either direction stand for the edges of the graph, each of them once, whether the graph
is frozen or editable. Asked for the in-edges of existing vertices a graph answers with the edges
that end there, asked for any other vertex it refuses.
-/
namespace GraphRelay

theorem Edge.edgeOf_entryOf (d : Direction) (e : Edge) : (e.entryOf d).edgeOf d = e := by
  cases d <;> rfl

theorem Entry.entryOf_edgeOf (d : Direction) (e : Entry) : (e.edgeOf d).entryOf d = e := by
  cases d <;> rfl

theorem Edge.map_edgeOf_entryOf (d : Direction) (edges : List Edge) :
    (edges.map (Edge.entryOf d)).map (Entry.edgeOf d) = edges := by
  rw [List.map_map]
  exact List.map_id'' (edgeOf_entryOf d) edges

theorem Entry.map_entryOf_edgeOf (d : Direction) (entries : List Entry) :
    (entries.map (Entry.edgeOf d)).map (Edge.entryOf d) = entries := by
  rw [List.map_map]
  exact List.map_id'' (entryOf_edgeOf d) entries

theorem filter_or_perm {α : Type} {p q : α → Bool} {xs : List α}
    (apart : ∀ x ∈ xs, p x = true → q x = false) :
    (xs.filter fun x => p x || q x).Perm (xs.filter p ++ xs.filter q) := by
  have split := List.filter_append_perm p (xs.filter fun x => p x || q x)
  rw [List.filter_filter, List.filter_filter] at split
  have first : (xs.filter fun x => p x && (p x || q x)) = xs.filter p :=
    List.filter_congr fun x _ => by cases p x <;> simp
  have second : (xs.filter fun x => !p x && (p x || q x)) = xs.filter q :=
    List.filter_congr fun x hx => by
      have := apart x hx
      cases hp : p x <;> simp_all
  rw [first, second] at split
  exact split.symm

/-- Collected key by key, the elements that belong to one of the keys come once each. -/
theorem flatMap_perm_filter {κ α β : Type} {keys : List κ} {ys : List β} {f : β → List α}
    {xs : List α} {p : κ → α → Prop} [∀ k, DecidablePred (p k)] (nodup : keys.Nodup)
    (apart : ∀ x ∈ xs, ∀ j k, p j x → p k x → j = k)
    (each : List.Forall₂ (fun k y => (f y).Perm (xs.filter fun x => p k x)) keys ys) :
    (ys.flatMap f).Perm (xs.filter fun x => ∃ k ∈ keys, p k x) := by
  induction each with
  | nil => simp
  | @cons k y keys ys first _ ih =>
    rw [List.nodup_cons] at nodup
    have other : ∀ x ∈ xs, decide (p k x) = true → decide (∃ j ∈ keys, p j x) = false := by
      intro x hx own
      refine decide_eq_false ?_
      rintro ⟨j, hj, belongs⟩
      rw [apart x hx j k belongs (of_decide_eq_true own)] at hj
      exact nodup.1 hj
    have both := filter_or_perm other
    simp only [← Bool.decide_or] at both
    simp only [List.flatMap_cons, List.exists_mem_cons_iff]
    exact (first.append (ih nodup.2)).trans both.symm

theorem Adjacency.length_flatten_take (start k : Nat) (rows : List (List Arc)) :
    (rows.take k).flatten.length = (entriesFrom start rows).countP (·.row < start + k) := by
  induction rows generalizing start k with
  | nil => simp [entriesFrom]
  | cons row rows ih =>
    cases k with
    | zero =>
      refine (List.countP_eq_zero.2 fun e he => ?_).symm
      have := le_row_of_mem_entriesFrom he
      simpa using this
    | succ k =>
      have own : (row.map fun arc => (⟨start, arc.neighbor, arc.edge⟩ : Entry)).countP
          (·.row < start + (k + 1)) = row.length := by
        rw [← List.length_map fun arc : Arc => (⟨start, arc.neighbor, arc.edge⟩ : Entry),
          List.countP_eq_length]
        simp
      rw [List.take_succ_cons, List.flatten_cons, List.length_append, entriesFrom,
        List.countP_append, own, ih (start + 1), Nat.add_right_comm start 1]
      rfl

theorem FrozenGraph.Reachable.view {g : FrozenGraph} (h : g.Reachable) (d : Direction) :
    (g.view d).WellFormed ∧ (g.view d).vertexCount = g.vertexCount ∧
      ((g.view d).edgesOf d).Perm g.edges := by
  obtain ⟨n, edges, described⟩ := h.describes
  obtain ⟨wellFormed, count, same⟩ := described.view d
  exact ⟨wellFormed, count.trans described.vertexCount.symm,
    same.trans (described.view .outgoing).2.2.symm⟩

namespace Graph

/-- The graphs of either kind that can be made. -/
inductive Reachable : Graph → Prop where
  | editable {g : EditableGraph} (h : g.Reachable) : Reachable (.editable g)
  | frozen {g : FrozenGraph} (h : g.Reachable) : Reachable (.frozen g)

theorem reachable_editable {g : EditableGraph} : (editable g).Reachable ↔ g.Reachable := by
  constructor
  · intro h
    cases h with
    | editable h => exact h
  · exact .editable

theorem reachable_frozen {g : FrozenGraph} : (frozen g).Reachable ↔ g.Reachable := by
  constructor
  · intro h
    cases h with
    | frozen h => exact h
  · exact .frozen

/-- Every edge: an editable graph lists them by id, a frozen one by source. -/
def edges : Graph → List Edge
  | editable g => g.edges
  | frozen g => g.edges

variable {g : Graph}

theorem Reachable.length_arcRows (h : g.Reachable) (d : Direction) :
    (g.arcRows d).length = g.vertexCount := by
  cases h with
  | editable h =>
    rw [h.eq_listing.2]
    cases d
    · exact EditableGraph.length_rowsOf.trans EditableGraph.vertexCount_listing.symm
    · rfl
  | frozen h => exact (h.view d).2.1

theorem Reachable.entries_perm (h : g.Reachable) (d : Direction) :
    (Adjacency.entriesFrom 0 (g.arcRows d)).Perm (g.edges.map (Edge.entryOf d)) := by
  cases h with
  | @editable g h =>
    have rows : (Graph.editable g).arcRows d =
        EditableGraph.rowsOf d g.vertexCount (EditableGraph.numbered 0 g.pairs) := by
      cases d
      · exact congrArg EditableGraph.incoming h.eq_listing.2
      · exact congrArg EditableGraph.outgoing h.eq_listing.2
    apply Adjacency.perm_of_arcsOf
    intro v
    have own := Adjacency.arcsOf_entriesFrom 0 v ((Graph.editable g).arcRows d)
    rw [Nat.zero_add] at own
    rw [own, rows]
    by_cases hv : v < g.vertexCount
    · rw [EditableGraph.getElem?_rowsOf hv]
      exact .refl _
    · rw [List.getElem?_eq_none (by simpa using hv)]
      refine List.Perm.of_eq (Adjacency.arcsOf_eq_nil fun entry hentry => ?_).symm
      obtain ⟨e, he, rfl⟩ := List.mem_map.1 hentry
      exact Nat.ne_of_lt (Nat.lt_of_lt_of_le
        (EditableGraph.Listable.row_lt h.eq_listing.1.inside d he) (Nat.le_of_not_lt hv))
  | frozen h =>
    have same := (h.view d).2.2.map (Edge.entryOf d)
    rwa [Adjacency.edgesOf, Entry.map_entryOf_edgeOf] at same

theorem Reachable.edges_perm (h : g.Reachable) (d : Direction) :
    ((Adjacency.entriesFrom 0 (g.arcRows d)).map (Entry.edgeOf d)).Perm g.edges := by
  have same := (h.entries_perm d).map (Entry.edgeOf d)
  rwa [Edge.map_edgeOf_entryOf] at same

theorem Reachable.mem_edges_iff (h : g.Reachable) (d : Direction) {e : Edge} : e ∈ g.edges ↔
    ∃ row, (g.arcRows d)[(e.entryOf d).row]? = some row ∧ (e.entryOf d).arc ∈ row := by
  rw [← (h.edges_perm d).mem_iff]
  constructor
  · intro he
    obtain ⟨entry, hentry, rfl⟩ := List.mem_map.1 he
    obtain ⟨v, row, hrow, hv, harc⟩ := Adjacency.mem_entriesFrom.1 hentry
    rw [Nat.zero_add] at hv
    rw [Entry.entryOf_edgeOf, hv]
    exact ⟨row, hrow, harc⟩
  · rintro ⟨row, hrow, harc⟩
    rw [← Edge.edgeOf_entryOf d e]
    exact List.mem_map_of_mem
      (Adjacency.mem_entriesFrom.2 ⟨_, row, hrow, (Nat.zero_add _).symm, harc⟩)

theorem Reachable.row_lt (h : g.Reachable) (d : Direction) {e : Edge} (he : e ∈ g.edges) :
    (e.entryOf d).row < g.vertexCount := by
  have entry := (h.entries_perm d).mem_iff.2 (List.mem_map_of_mem he)
  have := Adjacency.row_lt_of_mem_entriesFrom entry
  rwa [Nat.zero_add, h.length_arcRows d] at this

theorem Reachable.inside (h : g.Reachable) {e : Edge} (he : e ∈ g.edges) :
    e.src < g.vertexCount ∧ e.dst < g.vertexCount :=
  ⟨h.row_lt .outgoing he, h.row_lt .incoming he⟩

/-- The first rows hold the edges whose own endpoint is one of the first vertices. -/
theorem Reachable.length_flatten_take (h : g.Reachable) (d : Direction) (k : Nat) :
    ((g.arcRows d).take k).flatten.length = g.edges.countP fun e => (e.entryOf d).row < k := by
  rw [Adjacency.length_flatten_take 0, Nat.zero_add, (h.entries_perm d).countP_eq, List.countP_map]
  rfl

theorem Reachable.edgeCount_eq (h : g.Reachable) : g.edgeCount = g.edges.length := by
  cases h with
  | editable h => exact (EditableGraph.length_numbered 0 _).symm
  | @frozen g h =>
    have primary := (h.view g.direction).2.2.length_eq
    rw [FrozenGraph.view, FrozenGraph.cached, if_pos rfl, Option.getD_some, Adjacency.edgesOf,
      List.length_map] at primary
    rw [edges, ← primary, edgeCount, FrozenGraph.edgeCount, Adjacency.edgeCount,
      ← Adjacency.map_arc_entries, List.length_map]

theorem Reachable.length_flatten_arcRows (h : g.Reachable) (d : Direction) :
    (g.arcRows d).flatten.length = g.edgeCount := by
  rw [← Adjacency.map_arc_entriesFrom 0, List.length_map, (h.entries_perm d).length_eq,
    List.length_map, h.edgeCount_eq]

/-- The edges into `v` in the order of its row. -/
def edgesInto (g : Graph) (v : Nat) : List Edge :=
  FrozenGraph.rowEdges .incoming v ((g.arcRows .incoming)[v]?.getD [])

theorem Reachable.edgesInto_perm (h : g.Reachable) (v : Nat) :
    (g.edgesInto v).Perm (g.edges.filter (·.dst = v)) := by
  have row := Adjacency.arcsOf_entriesFrom 0 v (g.arcRows .incoming)
  rw [Nat.zero_add] at row
  have listed : g.edgesInto v =
      ((Adjacency.entriesFrom 0 (g.arcRows .incoming)).filter (·.row = v)).map
        (Entry.edgeOf .incoming) := by
    rw [edgesInto, ← row, FrozenGraph.rowEdges, Adjacency.arcsOf, List.map_map]
    refine List.map_congr_left fun e he => ?_
    have := of_decide_eq_true (List.mem_filter.1 he).2
    simp [Entry.edgeOf, Entry.arc, this]
  rw [listed]
  have same := (h.edges_perm .incoming).filter (·.dst = v)
  rwa [List.filter_map] at same

theorem edgesInto_flatMap_perm (h : g.Reachable) {vs : List Nat} (nodup : vs.Nodup) :
    (vs.flatMap g.edgesInto).Perm (g.edges.filter (·.dst ∈ vs)) := by
  have apart : ∀ e ∈ g.edges, ∀ u v, e.dst = u → e.dst = v → u = v :=
    fun _ _ _ _ hu hv => hu.symm.trans hv
  have all := flatMap_perm_filter nodup apart
    (List.forall₂_same.2 fun v _ => h.edgesInto_perm v)
  simpa only [exists_eq_right'] using all

/-- The edges into `v`, or the fault that there is no such vertex. -/
def edgesIntoVertex (g : Graph) (v : Nat) : Except Fault (List Edge) :=
  if v < g.vertexCount then .ok (g.edgesInto v) else .error (.vertexOutside v g.vertexCount)

theorem inEdges_eq (g : Graph) (vs : List Nat) :
    g.inEdges vs = (vs.mapM g.edgesIntoVertex).map List.flatten := by
  cases g with
  | editable g =>
    have same : (fun v => do
        g.checkVertex v
        pure ((g.inArcs v).map fun (arc : Arc) => (⟨arc.neighbor, v, arc.edge⟩ : Edge))) =
        (editable g).edgesIntoVertex := by
      funext v
      rw [EditableGraph.checkVertex, edgesIntoVertex, vertexCount]
      split <;> rfl
    rw [inEdges, EditableGraph.inEdges, same]
    rfl
  | frozen g =>
    rw [inEdges, FrozenGraph.inEdges, FrozenGraph.edgesAt, FrozenGraph.atRows_eq]
    congr 2
    funext v
    rw [FrozenGraph.checkVertex, edgesIntoVertex, vertexCount]
    split <;> rfl

theorem inEdges_of_inside {vs : List Nat} (inside : ∀ v ∈ vs, v < g.vertexCount) :
    g.inEdges vs = .ok (vs.flatMap g.edgesInto) := by
  have rows : ∀ v ∈ vs, g.edgesIntoVertex v = .ok (g.edgesInto v) :=
    fun v hv => if_pos (inside v hv)
  rw [inEdges_eq, mapM_ok rows]
  rfl

theorem inEdges_of_outside {vs : List Nat} (outside : ∃ v ∈ vs, g.vertexCount ≤ v) :
    ∃ f, g.inEdges vs = .error f ∧ f.kind = .query := by
  rw [inEdges_eq]
  cases found : vs.mapM g.edgesIntoVertex with
  | ok rows =>
    obtain ⟨v, hv, hle⟩ := outside
    obtain ⟨row, ok⟩ := exists_mapM_eq_ok_iff.1 ⟨rows, found⟩ v hv
    rw [edgesIntoVertex, if_neg (Nat.not_lt.2 hle)] at ok
    cases ok
  | error f =>
    obtain ⟨v, -, refused⟩ := mapM_eq_error found
    rw [edgesIntoVertex] at refused
    split at refused
    · cases refused
    · cases refused
      exact ⟨_, rfl, rfl⟩

end Graph

end GraphRelay
