import GraphRelay.Proofs.Adjacency.IndexedSorting
import GraphRelay.Proofs.FirstOccurrence

/-!
# Cutting chosen rows out of compressed arrays

The positions of the chosen vertices are put into a hash map first. Then offsets, neighbors and parent
ids grow together, row by row in the order of the choice. What has grown after some rows is what those
rows come to, so in the end the arrays are those of the induced adjacency.
-/
namespace GraphRelay.Adjacency

/-- What a choice of vertices is refused for. -/
def ChoiceRefused (n : Nat) : List Nat → Fault → Prop :=
  RefusedFor (· < n) (Fault.vertexOutside · n) Fault.repeatedVertex

section Choice

variable {n : Nat} {before : List Nat}

theorem checkChoice_after (inside : ∀ v ∈ before, v < n) (nodup : before.Nodup) (rest : List Nat) :
    (checkChoice n before.reverse rest = .ok () ∧
      (∀ v ∈ before ++ rest, v < n) ∧ (before ++ rest).Nodup) ∨
    ∃ f, checkChoice n before.reverse rest = .error f ∧ ChoiceRefused n (before ++ rest) f := by
  induction rest generalizing before with
  | nil => exact .inl ⟨rfl, by simpa using inside, by simpa using nodup⟩
  | cons v rest ih =>
    rw [checkChoice, List.contains_reverse]
    split
    next far => exact .inr ⟨_, rfl, .bad rfl inside nodup (Nat.not_lt.2 far)⟩
    next near =>
    split
    next old => exact .inr ⟨_, rfl, .again rfl inside nodup (by simpa using old)⟩
    next new =>
    have inside' : ∀ u ∈ before ++ [v], u < n := by
      rw [List.forall_mem_append, List.forall_mem_singleton]
      exact ⟨inside, Nat.lt_of_not_le near⟩
    have later := ih inside' (nodup_concat nodup (by simpa using new))
    rwa [List.reverse_append, List.append_assoc] at later

/-- A choice passes exactly when it is of pairwise distinct vertices that exist. -/
theorem checkChoice_cases (n : Nat) (chosen : List Nat) :
    (checkChoice n [] chosen = .ok () ∧ (∀ v ∈ chosen, v < n) ∧ chosen.Nodup) ∨
      ∃ f, checkChoice n [] chosen = .error f ∧ ChoiceRefused n chosen f :=
  checkChoice_after (List.forall_mem_nil _) List.nodup_nil chosen

end Choice

namespace Arrays

/-- Numbers the vertices of a choice from `i` on, unless one is outside or there already. -/
def indexChoice (n : Nat) (index : Std.HashMap Nat Nat) (i : Nat) :
    List Nat → Except Fault (Std.HashMap Nat Nat)
  | [] => .ok index
  | v :: rest =>
    if n ≤ v then .error (.vertexOutside v n)
    else match index.containsThenInsert v i with
    | (true, _) => .error (.repeatedVertex v)
    | (false, index) => indexChoice n index (i + 1) rest

/-- Arrays that are being filled, and the parent edges of what they hold. -/
structure Filling where
  offsets : List Nat
  neighbors : List Nat
  parents : List Nat
  deriving DecidableEq, Repr

/-- Puts a neighbor and its edge behind the others if the neighbor has a number. -/
def keepArc (index : Std.HashMap Nat Nat) (s : Filling) (arc : Nat × Nat) : Filling :=
  match index[arc.1]? with
  | some i => { s with neighbors := s.neighbors ++ [i], parents := s.parents ++ [arc.2] }
  | none => s

def keepRow? (a : Arrays) (index : Std.HashMap Nat Nat) (s : Filling) (v : Nat) :
    Option Filling := do
  let (cols, ids) ← a.row? v
  let s := (cols.zip ids).foldl (keepArc index) s
  pure { s with offsets := s.offsets ++ [s.neighbors.length] }

/-- The filled arrays with edges numbered from 0, and the parent edges. -/
def Filling.finish? (s : Filling) : Option (Arrays × List Nat) := do
  let sorted ← rowsSorted? s.offsets s.neighbors
  pure (⟨s.offsets, s.neighbors, List.range s.neighbors.length, sorted⟩, s.parents)

/-- The arrays of the chosen rows and the parent edges; nothing where a bound would be passed. -/
def induced? (a : Arrays) (chosen : List Nat) : Option (Except Fault (Arrays × List Nat)) :=
  match indexChoice a.vertexCount ∅ 0 chosen with
  | .error f => some (.error f)
  | .ok index => do
    let s ← chosen.foldlM (a.keepRow? index) ⟨[0], [], []⟩
    let made ← s.finish?
    pure (.ok made)

/-- What has been filled in when `rows` are through. -/
def Filling.ofRows (rows : List (List Arc)) : Filling :=
  ⟨offsetsFrom 0 rows, rows.flatten.map Arc.neighbor, rows.flatten.map Arc.edge⟩

theorem indexChoice_eq {index : Std.HashMap Nat Nat} {order : List Nat} (h : Indexes index order)
    (n : Nat) (rest : List Nat) :
    (∃ f, checkChoice n order.reverse rest = .error f ∧
      indexChoice n index order.length rest = .error f) ∨
    ∃ full, checkChoice n order.reverse rest = .ok () ∧
      indexChoice n index order.length rest = .ok full ∧ Indexes full (order ++ rest) := by
  induction rest generalizing index order with
  | nil => exact .inr ⟨index, rfl, rfl, by simpa using h⟩
  | cons v rest ih =>
    rw [checkChoice, indexChoice, List.contains_reverse]
    split
    next far => exact .inl ⟨_, rfl, rfl⟩
    next near =>
    have met : (index.containsThenInsert v order.length).1 = order.contains v := by
      rw [Std.HashMap.containsThenInsert_fst, Bool.eq_iff_iff, List.contains_iff_mem,
        Std.HashMap.contains_iff_mem, h.mem_iff]
    have grown := Std.HashMap.containsThenInsert_snd (m := index) (k := v) (v := order.length)
    generalize index.containsThenInsert v order.length = both at met grown
    obtain ⟨old, larger⟩ := both
    dsimp only at met grown
    subst met grown
    cases old : order.contains v with
    | true => exact .inl ⟨_, rfl, rfl⟩
    | false =>
      have new : v ∉ order := by simpa using old
      have later := ih (h.insert new)
      rwa [List.reverse_append, List.length_append, List.append_assoc] at later

end Arrays

section Filling

variable {a : Adjacency} {index : Std.HashMap Nat Nat} {chosen : List Nat}

theorem offsetsFrom_concat (start : Nat) (rows : List (List Arc)) (row : List Arc) :
    offsetsFrom start (rows ++ [row]) =
      offsetsFrom start rows ++ [start + (rows.flatten.length + row.length)] := by
  induction rows generalizing start with
  | nil => simp [offsetsFrom]
  | cons first rows ih =>
    rw [List.cons_append, offsetsFrom, ih, offsetsFrom, List.flatten_cons, List.length_append,
      List.cons_append]
    simp only [Nat.add_assoc]

/-- Where a row ends is how far the neighbors reach once it is there. -/
theorem offsetsFrom_grow (rows : List (List Arc)) (row : List Arc) :
    offsetsFrom 0 rows ++
        [(rows.flatten.map Arc.neighbor ++ row.map Arc.neighbor).length] =
      offsetsFrom 0 (rows ++ [row]) := by
  rw [offsetsFrom_concat, Nat.zero_add, List.length_append, List.length_map, List.length_map]

theorem map_flatten_concat (f : Arc → Nat) (rows : List (List Arc)) (row : List Arc) :
    rows.flatten.map f ++ row.map f = (rows ++ [row]).flatten.map f := by
  rw [List.flatten_concat, List.map_append]

/-- The arcs of one row, renamed and put behind what is there. -/
theorem foldl_keepArc (h : Indexes index chosen) (s : Arrays.Filling) (row : List Arc) :
    ((row.map Arc.neighbor).zip (row.map Arc.edge)).foldl (Arrays.keepArc index) s =
      let kept := row.filterMap fun arc =>
        (chosen.idxOf? arc.neighbor).map fun i => (⟨i, arc.edge⟩ : Arc)
      ⟨s.offsets, s.neighbors ++ kept.map Arc.neighbor, s.parents ++ kept.map Arc.edge⟩ := by
  induction row generalizing s with
  | nil => simp
  | cons arc row ih =>
    rw [List.map_cons, List.map_cons, List.zip_cons_cons, List.foldl_cons, ih, Arrays.keepArc,
      h.getElem?]
    cases place : chosen.idxOf? arc.neighbor with
    | none => simp [place]
    | some i => simp [place]

theorem keepRow?_arrays (h : Indexes index chosen) {v : Nat} (hv : v < a.vertexCount)
    (rows : List (List Arc)) : a.arrays.keepRow? index (.ofRows rows) v =
      some (.ofRows (rows ++ [a.keptArcs chosen v])) := by
  have read : a.arrays.keepRow? index (.ofRows rows) v = some
      ⟨offsetsFrom 0 rows ++
          [(rows.flatten.map Arc.neighbor ++ (a.keptArcs chosen v).map Arc.neighbor).length],
        rows.flatten.map Arc.neighbor ++ (a.keptArcs chosen v).map Arc.neighbor,
        rows.flatten.map Arc.edge ++ (a.keptArcs chosen v).map Arc.edge⟩ := by
    simp only [Arrays.keepRow?, row?_arrays hv, Option.bind_eq_bind, Option.bind_some,
      foldl_keepArc h]
    rfl
  rw [read, offsetsFrom_grow, map_flatten_concat, map_flatten_concat]
  rfl

theorem foldlM_keepRow? (h : Indexes index chosen) {vs : List Nat}
    (inside : ∀ v ∈ vs, v < a.vertexCount) (rows : List (List Arc)) :
    vs.foldlM (a.arrays.keepRow? index) (.ofRows rows) =
      some (.ofRows (rows ++ vs.map (a.keptArcs chosen))) := by
  induction vs generalizing rows with
  | nil => simp
  | cons v vs ih =>
    rw [List.forall_mem_cons] at inside
    rw [List.foldlM_cons, keepRow?_arrays h inside.1, Option.bind_eq_bind, Option.bind_some,
      ih inside.2, List.append_assoc, List.map_cons]
    rfl

end Filling

section Numbering

variable (first start : Nat) (rows : List (List Arc))

theorem map_edge_flatten_numberFrom :
    (numberFrom first rows).flatten.map Arc.edge = List.range' first rows.flatten.length := by
  induction rows generalizing first with
  | nil => rfl
  | cons row rows ih =>
    have own := List.zipIdx_map_snd first row
    rw [numberFrom, List.flatten_cons, List.map_append, ih, List.flatten_cons,
      List.length_append, ← List.range'_append_1, ← own, List.map_map]
    rfl

theorem map_neighbor_flatten_numberFrom :
    (numberFrom first rows).flatten.map Arc.neighbor = rows.flatten.map Arc.neighbor := by
  rw [List.map_flatten, map_neighbor_numberFrom, ← List.map_flatten]

theorem offsetsFrom_numberFrom : offsetsFrom start (numberFrom first rows) = offsetsFrom start rows := by
  refine offsetsFrom_congr ?_ start
  have same := congrArg (List.map List.length) (map_neighbor_numberFrom first rows)
  simp only [List.map_map] at same
  have count : List.length ∘ List.map Arc.neighbor = List.length :=
    funext fun row => List.length_map Arc.neighbor
  rwa [count] at same

/-- Numbered rows have the entries of the rows, with their positions for ids. -/
theorem entriesFrom_numberFrom : entriesFrom start (numberFrom first rows) =
    ((entriesFrom start rows).zipIdx first).map fun (e, i) => ⟨e.row, e.col, i⟩ := by
  induction rows generalizing first start with
  | nil => rfl
  | cons row rows ih =>
    rw [numberFrom, entriesFrom, entriesFrom, ih, List.zipIdx_append, List.map_append,
      List.length_map, List.zipIdx_map, List.map_map, List.map_map]
    rfl

theorem offsets_numbered : (ofRows (numberFrom 0 rows)).offsets = offsetsFrom 0 rows :=
  offsetsFrom_numberFrom 0 0 rows

theorem neighbors_numbered :
    (ofRows (numberFrom 0 rows)).neighbors = rows.flatten.map Arc.neighbor :=
  map_neighbor_flatten_numberFrom 0 rows

theorem edgeIds_numbered :
    (ofRows (numberFrom 0 rows)).edgeIds = List.range rows.flatten.length := by
  rw [List.range_eq_range']
  exact map_edge_flatten_numberFrom 0 rows

theorem edgeCount_numbered : (ofRows (numberFrom 0 rows)).edgeCount = rows.flatten.length := by
  rw [edgeCount, ← List.length_map Arc.edge, ← edgeIds, edgeIds_numbered, List.length_range]

/-- Arrays that were filled are those of the numbered rows. -/
theorem finish?_ofRows : (Arrays.Filling.ofRows rows).finish? =
    some ((ofRows (numberFrom 0 rows)).arrays, rows.flatten.map Arc.edge) := by
  have sorted := rowsSorted?_arrays (ofRows (numberFrom 0 rows))
  rw [offsets_numbered, neighbors_numbered] at sorted
  simp only [Arrays.Filling.finish?, Arrays.Filling.ofRows, sorted, Option.bind_eq_bind,
    Option.bind_some, List.length_map, arrays, offsets_numbered, neighbors_numbered,
    edgeIds_numbered]
  rfl

end Numbering

/-- Reading in bounds, a choice is cut out of the arrays as it is cut out of the rows, or refused for
the same vertex. -/
theorem induced?_arrays (a : Adjacency) (chosen : List Nat) : a.arrays.induced? chosen =
    some ((a.induced chosen).map fun (sub, parents) => (sub.arrays, parents)) := by
  rw [Arrays.induced?, vertexCount_arrays, induced]
  have indexed := Arrays.indexChoice_eq indexes_empty a.vertexCount chosen
  rw [List.reverse_nil, List.length_nil, List.nil_append] at indexed
  rcases indexed with ⟨f, refused, same⟩ | ⟨index, passed, same, indexes⟩
  · rw [refused, same]
    rfl
  · have inside : ∀ v ∈ chosen, v < a.vertexCount := by
      rcases checkChoice_cases a.vertexCount chosen with ⟨-, inside, -⟩ | ⟨f, refused, -⟩
      · exact inside
      · rw [passed] at refused
        cases refused
    have filled : chosen.foldlM (a.arrays.keepRow? index) ⟨[0], [], []⟩ =
        some (.ofRows (chosen.map (a.keptArcs chosen))) := foldlM_keepRow? indexes inside []
    rw [passed, same]
    dsimp only
    rw [filled, Option.bind_eq_bind, Option.bind_some, finish?_ofRows]
    rfl

end GraphRelay.Adjacency
