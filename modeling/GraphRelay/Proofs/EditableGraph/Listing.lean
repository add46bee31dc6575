import GraphRelay.EditableGraph
import GraphRelay.Proofs.Adjacency.Entries

/-!
# What an editable graph lists

An editable graph that can be made is known from its number of vertices, its listed pairs and its
flag: each of its rows holds the arcs that the list has for that vertex, in the order of the list.
-/
namespace GraphRelay

/-- The entry that an edge is in an adjacency of direction `d`. -/
def Edge.entryOf (d : Direction) (e : Edge) : Entry :=
  match d with
  | .outgoing => ⟨e.src, e.dst, e.id⟩
  | .incoming => ⟨e.dst, e.src, e.id⟩

namespace EditableGraph

/-- Pairs as edges, numbered from `start`. -/
def numbered (start : Nat) (pairs : List (Nat × Nat)) : List Edge :=
  (pairs.zipIdx start).map fun ((s, d), i) => ⟨s, d, i⟩

/-- The rows that edges make for `n` vertices in direction `d`. -/
def rowsOf (d : Direction) (n : Nat) (edges : List Edge) : List (List Arc) :=
  (List.range n).map fun v => Adjacency.arcsOf v (edges.map (Edge.entryOf d))

/-- The graph on `n` vertices that lists `pairs`. -/
def listing (n : Nat) (pairs : List (Nat × Nat)) (multigraph : Bool) : EditableGraph :=
  ⟨rowsOf .outgoing n (numbered 0 pairs), rowsOf .incoming n (numbered 0 pairs), pairs, multigraph⟩

/-- Endpoints are vertices, and a simple graph lists no pair twice. -/
structure Listable (n : Nat) (pairs : List (Nat × Nat)) (multigraph : Bool) : Prop where
  inside : ∀ p ∈ pairs, p.1 < n ∧ p.2 < n
  simple : multigraph = false → pairs.Nodup

theorem numbered_concat (start : Nat) (pairs : List (Nat × Nat)) (p : Nat × Nat) :
    numbered start (pairs ++ [p]) = numbered start pairs ++ [⟨p.1, p.2, start + pairs.length⟩] := by
  simp [numbered, List.zipIdx_append]

theorem length_numbered (start : Nat) (pairs : List (Nat × Nat)) :
    (numbered start pairs).length = pairs.length := by
  rw [numbered, List.length_map, List.length_zipIdx]

theorem map_endpoints_numbered (start : Nat) (pairs : List (Nat × Nat)) :
    (numbered start pairs).map (fun e => (e.src, e.dst)) = pairs := by
  rw [numbered, List.map_map]
  exact List.zipIdx_map_fst start pairs

theorem mem_numbered {pairs : List (Nat × Nat)} {e : Edge} :
    e ∈ numbered 0 pairs ↔ pairs[e.id]? = some (e.src, e.dst) := by
  rw [numbered, List.mem_map]
  constructor
  · rintro ⟨⟨p, i⟩, hp, rfl⟩
    exact List.mem_zipIdx_iff_getElem?.1 hp
  · intro h
    exact ⟨((e.src, e.dst), e.id), List.mem_zipIdx_iff_getElem?.2 h, rfl⟩

theorem mem_pairs_of_mem_numbered {start : Nat} {pairs : List (Nat × Nat)} {e : Edge}
    (h : e ∈ numbered start pairs) : (e.src, e.dst) ∈ pairs := by
  rw [← map_endpoints_numbered start pairs]
  exact List.mem_map_of_mem h

theorem checkVertex_of_lt {g : EditableGraph} {v : Nat} (h : v < g.vertexCount) :
    g.checkVertex v = .ok () := if_pos h

theorem checkVertex_of_not_lt {g : EditableGraph} {v : Nat} (h : ¬v < g.vertexCount) :
    g.checkVertex v = .error (.vertexOutside v g.vertexCount) := if_neg h

section Rows

variable {d : Direction} {n : Nat} {edges : List Edge}

@[simp] theorem length_rowsOf : (rowsOf d n edges).length = n := by
  rw [rowsOf, List.length_map, List.length_range]

theorem getElem?_rowsOf {v : Nat} (h : v < n) :
    (rowsOf d n edges)[v]? = some (Adjacency.arcsOf v (edges.map (Edge.entryOf d))) := by
  rw [rowsOf, List.getElem?_map, List.getElem?_range h]
  rfl

theorem rowsOf_concat (e : Edge) : rowsOf d n (edges ++ [e]) =
    (rowsOf d n edges).modify (e.entryOf d).row (· ++ [(e.entryOf d).arc]) := by
  refine List.ext_getElem? fun v => ?_
  rw [List.getElem?_modify]
  by_cases hv : v < n
  · rw [getElem?_rowsOf hv, getElem?_rowsOf hv, List.map_append, Adjacency.arcsOf_append,
      List.map_singleton, Adjacency.arcsOf_cons]
    split <;> simp
  · rw [List.getElem?_eq_none (by simpa using hv), List.getElem?_eq_none (by simpa using hv)]
    rfl

theorem rowsOf_add (k : Nat) (h : ∀ e ∈ edges, (e.entryOf d).row < n) :
    rowsOf d (n + k) edges = rowsOf d n edges ++ List.replicate k [] := by
  rw [rowsOf, List.range_add, List.map_append, List.map_map, ← rowsOf]
  congr 1
  rw [List.eq_replicate_iff, List.length_map, List.length_range]
  refine ⟨rfl, fun row hrow => ?_⟩
  obtain ⟨v, -, rfl⟩ := List.mem_map.1 hrow
  refine Adjacency.arcsOf_eq_nil fun entry hentry => ?_
  obtain ⟨e, he, rfl⟩ := List.mem_map.1 hentry
  exact Nat.ne_of_lt (Nat.lt_add_right v (h e he))

end Rows

section Listing

variable {n s d : Nat} {pairs more : List (Nat × Nat)} {multigraph : Bool}

@[simp] theorem vertexCount_listing : (listing n pairs multigraph).vertexCount = n := length_rowsOf

theorem Listable.row_lt (h : ∀ p ∈ pairs, p.1 < n ∧ p.2 < n) (c : Direction) {e : Edge}
    (he : e ∈ numbered 0 pairs) : (e.entryOf c).row < n := by
  have inside := h _ (mem_pairs_of_mem_numbered he)
  cases c
  · exact inside.2
  · exact inside.1

theorem Listable.addVertices (h : Listable n pairs multigraph) (k : Nat) :
    Listable (n + k) pairs multigraph :=
  ⟨fun p hp => ⟨Nat.lt_add_right k (h.inside p hp).1, Nat.lt_add_right k (h.inside p hp).2⟩,
    h.simple⟩

theorem addVertices_listing (h : ∀ p ∈ pairs, p.1 < n ∧ p.2 < n) (k : Nat) :
    (listing n pairs multigraph).addVertices k = listing (n + k) pairs multigraph := by
  rw [listing, listing, rowsOf_add k fun _ => Listable.row_lt h .outgoing,
    rowsOf_add k fun _ => Listable.row_lt h .incoming]
  rfl

theorem pushEdge_listing (n s d : Nat) (pairs : List (Nat × Nat)) (multigraph : Bool) :
    (listing n pairs multigraph).pushEdge s d = listing n (pairs ++ [(s, d)]) multigraph := by
  rw [listing, listing, numbered_concat, rowsOf_concat, rowsOf_concat, Nat.zero_add]
  rfl

theorem hasEdge_listing (hs : s < n) :
    (listing n pairs multigraph).hasEdge s d = true ↔ (s, d) ∈ pairs := by
  have row : (listing n pairs multigraph).outArcs s =
      Adjacency.arcsOf s ((numbered 0 pairs).map (Edge.entryOf .outgoing)) := by
    rw [outArcs, listing, getElem?_rowsOf hs, Option.getD_some]
  rw [hasEdge, row, List.any_eq_true]
  constructor
  · rintro ⟨arc, harc, hd⟩
    obtain ⟨e, he, heq⟩ := List.mem_map.1 (Adjacency.mem_arcsOf.1 harc)
    have listed := mem_pairs_of_mem_numbered he
    simp only [Edge.entryOf, Entry.mk.injEq] at heq
    rwa [heq.1, heq.2.1, of_decide_eq_true hd] at listed
  · intro h
    obtain ⟨i, hi⟩ := List.getElem?_of_mem h
    refine ⟨⟨d, i⟩, Adjacency.mem_arcsOf.2 (List.mem_map.2 ⟨⟨s, d, i⟩, ?_, rfl⟩), by simp⟩
    exact List.mem_map.2 ⟨((s, d), i), List.mem_zipIdx_iff_getElem?.2 hi, rfl⟩

/-- An edge between vertices is refused only where a simple graph has it already. -/
theorem addEdge_listing (hs : s < n) (hd : d < n) :
    (listing n pairs multigraph).addEdge s d =
      if multigraph = false ∧ (s, d) ∈ pairs then .error (.parallelEdge s d)
      else .ok (listing n (pairs ++ [(s, d)]) multigraph) := by
  have check : ∀ v, v < n → (listing n pairs multigraph).checkVertex v = .ok () :=
    fun v hv => checkVertex_of_lt (vertexCount_listing.symm ▸ hv)
  rw [addEdge, check s hs, check d hd, pushEdge_listing]
  simp only [Bool.and_eq_true, hasEdge_listing hs, Bool.not_eq_true']
  rfl

theorem addEdge_listing_eq_ok {g : EditableGraph}
    (h : (listing n pairs multigraph).addEdge s d = .ok g) :
    s < n ∧ d < n ∧ (multigraph = false → (s, d) ∉ pairs) ∧
      g = listing n (pairs ++ [(s, d)]) multigraph := by
  have inside : s < n ∧ d < n := by
    simp only [addEdge, checkVertex, vertexCount_listing] at h
    by_cases hs : s < n <;> by_cases hd : d < n <;> simp_all
  rw [addEdge_listing inside.1 inside.2] at h
  split at h
  · exact absurd h (by simp)
  next free =>
  exact ⟨inside.1, inside.2, fun simple listed => free ⟨simple, listed⟩, (Except.ok.inj h).symm⟩

theorem Listable.concat (h : Listable n pairs multigraph) (hs : s < n) (hd : d < n)
    (free : multigraph = false → (s, d) ∉ pairs) :
    Listable n (pairs ++ [(s, d)]) multigraph := by
  constructor
  · intro p hp
    rcases List.mem_append.1 hp with hp | hp
    · exact h.inside p hp
    · obtain rfl := List.mem_singleton.1 hp
      exact ⟨hs, hd⟩
  · intro simple
    rw [List.nodup_append]
    refine ⟨h.simple simple, List.pairwise_singleton .., fun p hp q hq => ?_⟩
    rintro rfl
    exact free simple (List.mem_singleton.1 hq ▸ hp)

/-- All pairs are added as long as the longer list may be listed. -/
theorem addPairs_listing (h : Listable n (pairs ++ more) multigraph) :
    (listing n pairs multigraph).addPairs more =
      (listing n (pairs ++ more) multigraph, none) := by
  induction more generalizing pairs with
  | nil => rw [List.append_nil, addPairs]
  | cons p more ih =>
    obtain ⟨s, d⟩ := p
    have inside := h.inside (s, d) (by simp)
    have free : ¬ (multigraph = false ∧ (s, d) ∈ pairs) := by
      rintro ⟨simple, listed⟩
      exact (List.nodup_append.1 (h.simple simple)).2.2 _ listed (s, d) (by simp) rfl
    rw [List.append_cons] at h ⊢
    rw [addPairs, addEdge_listing inside.1 inside.2, if_neg free]
    exact ih h

/-- Between vertices pairs are refused only by a simple graph, for one that comes twice. -/
theorem addPairs_listing_cases (h : Listable n pairs multigraph)
    (inside : ∀ p ∈ more, p.1 < n ∧ p.2 < n) :
    Listable n (pairs ++ more) multigraph ∨
      ∃ g s d, (listing n pairs multigraph).addPairs more = (g, some (.parallelEdge s d)) ∧
        multigraph = false ∧ 1 < (pairs ++ more).count (s, d) := by
  induction more generalizing pairs with
  | nil => exact .inl (by rwa [List.append_nil])
  | cons p more ih =>
    obtain ⟨s, d⟩ := p
    rw [List.forall_mem_cons] at inside
    rw [addPairs, addEdge_listing inside.1.1 inside.1.2]
    by_cases taken : multigraph = false ∧ (s, d) ∈ pairs
    · rw [if_pos taken]
      refine .inr ⟨_, s, d, rfl, taken.1, ?_⟩
      have before := List.count_pos_iff.2 taken.2
      rw [List.count_append, List.count_cons_self]
      omega
    · rw [if_neg taken]
      have longer := h.concat inside.1.1 inside.1.2 fun simple listed => taken ⟨simple, listed⟩
      have later := ih longer inside.2
      rwa [← List.append_cons] at later

end Listing

/-- The editable graphs that can be made, of any size. -/
inductive Reachable : EditableGraph → Prop where
  | empty (multigraph : Bool) : Reachable (empty multigraph)
  | addVertices {g : EditableGraph} (h : Reachable g) (n : Nat) : Reachable (g.addVertices n)
  | addEdge {g g' : EditableGraph} {s d : Nat} (h : Reachable g) (added : g.addEdge s d = .ok g') :
      Reachable g'

theorem Reachable.eq_listing {g : EditableGraph} (h : g.Reachable) :
    Listable g.vertexCount g.pairs g.multigraph ∧
      g = listing g.vertexCount g.pairs g.multigraph := by
  induction h with
  | empty multigraph => exact ⟨⟨by simp [EditableGraph.empty], by simp [EditableGraph.empty]⟩, rfl⟩
  | addVertices h n ih =>
    obtain ⟨listable, eq⟩ := ih
    rw [eq, addVertices_listing listable.inside, vertexCount_listing]
    exact ⟨listable.addVertices n, rfl⟩
  | addEdge h added ih =>
    obtain ⟨listable, eq⟩ := ih
    rw [eq] at added
    obtain ⟨hs, hd, free, rfl⟩ := addEdge_listing_eq_ok added
    rw [vertexCount_listing]
    exact ⟨listable.concat hs hd free, rfl⟩

/-- The arcs that the graph keeps for `v` in direction `d`. -/
def arcsAt (g : EditableGraph) (d : Direction) (v : Nat) : List Arc :=
  match d with
  | .outgoing => g.outArcs v
  | .incoming => g.inArcs v

theorem Reachable.arcsAt_eq {g : EditableGraph} (h : g.Reachable) (d : Direction) {v : Nat}
    (hv : v < g.vertexCount) :
    g.arcsAt d v = Adjacency.arcsOf v (g.edges.map (Edge.entryOf d)) := by
  cases d with
  | outgoing =>
    rw [arcsAt, outArcs, congrArg EditableGraph.outgoing h.eq_listing.2]
    exact congrArg (·.getD []) (getElem?_rowsOf hv)
  | incoming =>
    rw [arcsAt, inArcs, congrArg EditableGraph.incoming h.eq_listing.2]
    exact congrArg (·.getD []) (getElem?_rowsOf hv)

/-- What every added edge preserves, a batch preserves, however far it gets. -/
theorem addPairs_preserves {P : EditableGraph → Prop}
    (step : ∀ {g g' : EditableGraph} {s d : Nat}, P g → g.addEdge s d = .ok g' → P g')
    {g g' : EditableGraph} {pairs : List (Nat × Nat)} {f : Option Fault} (h : P g)
    (added : g.addPairs pairs = (g', f)) : P g' := by
  induction pairs generalizing g with
  | nil =>
    rw [EditableGraph.addPairs, Prod.mk.injEq] at added
    exact added.1 ▸ h
  | cons p pairs ih =>
    obtain ⟨s, d⟩ := p
    rw [EditableGraph.addPairs] at added
    split at added
    · rw [Prod.mk.injEq] at added
      exact added.1 ▸ h
    · next next ok => exact ih (step h ok) added

theorem Reachable.addPairs {g g' : EditableGraph} {pairs : List (Nat × Nat)} {f : Option Fault}
    (h : g.Reachable) (added : g.addPairs pairs = (g', f)) : g'.Reachable :=
  addPairs_preserves Reachable.addEdge h added

theorem addVertices_empty (n : Nat) (multigraph : Bool) :
    (EditableGraph.empty multigraph).addVertices n = listing n [] multigraph := by
  have added := @addVertices_listing 0 [] multigraph (by simp) n
  rwa [Nat.zero_add] at added

theorem reachable_listing {n : Nat} {pairs : List (Nat × Nat)} {multigraph : Bool}
    (h : Listable n pairs multigraph) : (listing n pairs multigraph).Reachable := by
  have made := (Reachable.empty multigraph).addVertices n
  rw [addVertices_empty] at made
  exact made.addPairs (@addPairs_listing n [] pairs multigraph h)

/-- The editable graphs that can be made while the number of vertices is a machine word. -/
inductive Attained : EditableGraph → Prop where
  | empty (multigraph : Bool) : Attained (empty multigraph)
  | grow {g g' : EditableGraph} {n : Nat} (h : Attained g) (grown : g.grow n = some g') :
      Attained g'
  | addEdge {g g' : EditableGraph} {s d : Nat} (h : Attained g) (added : g.addEdge s d = .ok g') :
      Attained g'

theorem grow_eq_some_iff {g g' : EditableGraph} {n : Nat} :
    g.grow n = some g' ↔ g.vertexCount + n < UInt64.size ∧ g.addVertices n = g' := by
  rw [EditableGraph.grow]
  split
  · next word => rw [and_iff_right word, Option.some.injEq]
  · next outgrown => exact ⟨fun h => absurd h (by simp), fun h => absurd h.1 outgrown⟩

theorem vertexCount_addVertices (g : EditableGraph) (n : Nat) :
    (g.addVertices n).vertexCount = g.vertexCount + n := by
  rw [vertexCount, EditableGraph.addVertices, List.length_append, List.length_replicate]
  rfl

theorem vertexCount_addEdge {g g' : EditableGraph} {s d : Nat} (added : g.addEdge s d = .ok g') :
    g'.vertexCount = g.vertexCount := by
  rw [EditableGraph.addEdge] at added
  split at added
  · cases added
  split at added
  · cases added
  split at added
  · cases added
  · obtain rfl := Except.ok.inj added
    exact List.length_modify ..

/-- No sum outgrows its word on the way to a graph whose vertices are counted by a word. -/
theorem attained_iff {g : EditableGraph} : g.Attained ↔ g.Reachable ∧ g.vertexCount < UInt64.size := by
  constructor
  · intro h
    induction h with
    | empty multigraph => exact ⟨.empty multigraph, Nat.zero_lt_succ _⟩
    | grow _ grown ih =>
      obtain ⟨word, rfl⟩ := grow_eq_some_iff.1 grown
      rw [vertexCount_addVertices]
      exact ⟨ih.1.addVertices _, word⟩
    | addEdge _ added ih =>
      rw [vertexCount_addEdge added]
      exact ⟨ih.1.addEdge added, ih.2⟩
  · rintro ⟨h, word⟩
    induction h with
    | empty multigraph => exact .empty multigraph
    | addVertices _ n ih =>
      rw [vertexCount_addVertices] at word
      exact (ih (Nat.lt_of_add_right_lt word)).grow (grow_eq_some_iff.2 ⟨word, rfl⟩)
    | addEdge _ added ih =>
      rw [vertexCount_addEdge added] at word
      exact (ih word).addEdge added

theorem Attained.reachable {g : EditableGraph} (h : g.Attained) : g.Reachable := (attained_iff.1 h).1

theorem Attained.addPairs {g g' : EditableGraph} {pairs : List (Nat × Nat)} {f : Option Fault}
    (h : g.Attained) (added : g.addPairs pairs = (g', f)) : g'.Attained :=
  addPairs_preserves Attained.addEdge h added

/-- A flag that allows the listed pairs may take the place of a graph's own. -/
theorem Reachable.withFlag {g : EditableGraph} (h : g.Reachable) {multigraph : Bool}
    (simple : multigraph = false → g.multigraph = false) :
    Reachable { g with multigraph := multigraph } := by
  obtain ⟨listable, eq⟩ := h.eq_listing
  have made := reachable_listing ⟨listable.inside, fun none => listable.simple (simple none)⟩
  rw [eq]
  exact made

end EditableGraph

end GraphRelay
