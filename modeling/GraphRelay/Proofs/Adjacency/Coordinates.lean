import GraphRelay.Proofs.Adjacency.WellFormed

/-!
# Coordinate lists

`ofCoordinates` accepts exactly the lists of equal length whose endpoints are vertices, and refuses
all others as faults of construction.
-/
namespace GraphRelay.Adjacency

/-- What `ofCoordinates` asks of its lists. -/
structure Admissible (n : Nat) (rows cols : List Nat) (ids : Option (List Nat)) : Prop where
  length_cols : cols.length = rows.length
  length_ids : ∀ given ∈ ids, given.length = rows.length
  row_lt : ∀ r ∈ rows, r < n
  col_lt : ∀ c ∈ cols, c < n

theorem admissible_pairs {n : Nat} {pairs : List (Nat × Nat)}
    (inside : ∀ p ∈ pairs, p.1 < n ∧ p.2 < n) :
    Admissible n (pairs.map Prod.fst) (pairs.map Prod.snd) none := by
  refine ⟨by simp, by simp, fun r hr => ?_, fun c hc => ?_⟩
  · obtain ⟨p, hp, rfl⟩ := List.mem_map.1 hr
    exact (inside p hp).1
  · obtain ⟨p, hp, rfl⟩ := List.mem_map.1 hc
    exact (inside p hp).2

/-- The entries that coordinate lists describe, in their order. -/
def listed (rows cols : List Nat) (ids : Option (List Nat)) : List Entry :=
  zipEntries rows cols (ids.getD (List.range rows.length))

section Coordinates

variable {n : Nat} {rows cols : List Nat} {ids : Option (List Nat)}

theorem Admissible.inside_iff (h : cols.length = rows.length) :
    ((∀ r ∈ rows, r < n) ∧ ∀ c ∈ cols, c < n) ↔ ∀ p ∈ rows.zip cols, p.1 < n ∧ p.2 < n := by
  constructor
  · intro inside p hp
    have mem := List.of_mem_zip hp
    exact ⟨inside.1 _ mem.1, inside.2 _ mem.2⟩
  · intro inside
    refine ⟨fun r hr => ?_, fun c hc => ?_⟩
    · rw [← List.map_fst_zip (Nat.le_of_eq h.symm)] at hr
      obtain ⟨p, hp, rfl⟩ := List.mem_map.1 hr
      exact (inside p hp).1
    · rw [← List.map_snd_zip (Nat.le_of_eq h)] at hc
      obtain ⟨p, hp, rfl⟩ := List.mem_map.1 hc
      exact (inside p hp).2

theorem Admissible.length_getD (h : Admissible n rows cols ids) :
    (ids.getD (List.range rows.length)).length = rows.length := by
  cases ids with
  | none => exact List.length_range
  | some given => exact h.length_ids given rfl

theorem entriesWithin_of_admissible (h : Admissible n rows cols ids) :
    entriesWithin n rows cols ids = .ok (listed rows cols ids) := by
  rw [entriesWithin, if_neg (not_not_intro h.length_cols.symm),
    if_neg (not_not_intro h.length_getD)]
  split
  · next r c outside =>
    have inside := (Admissible.inside_iff h.length_cols).1 ⟨h.row_lt, h.col_lt⟩ _
      (List.mem_of_find?_eq_some outside)
    have := List.find?_some outside
    simp only [Bool.or_eq_true, decide_eq_true_eq] at this
    omega
  · rfl

theorem ofCoordinates_of_admissible (h : Admissible n rows cols ids) :
    ofCoordinates n rows cols ids = .ok (ofEntries n (listed rows cols ids)) := by
  rw [ofCoordinates, entriesWithin_of_admissible h]
  rfl

theorem entriesWithin_of_not_admissible (h : ¬ Admissible n rows cols ids) :
    ∃ f, entriesWithin n rows cols ids = .error f ∧ f.kind = .construction := by
  rw [entriesWithin]
  split
  · exact ⟨_, rfl, rfl⟩
  next lengths =>
  split
  · exact ⟨_, rfl, rfl⟩
  next count =>
  split
  · exact ⟨_, rfl, rfl⟩
  next inside =>
  have length_cols : cols.length = rows.length := (Decidable.not_not.1 lengths).symm
  have both : ∀ p ∈ rows.zip cols, p.1 < n ∧ p.2 < n := by
    intro p hp
    have := List.find?_eq_none.1 inside p hp
    simp only [Bool.or_eq_true, decide_eq_true_eq] at this
    omega
  refine absurd ⟨length_cols, fun given hgiven => ?_, ?_, ?_⟩ h
  · rw [Option.mem_def.1 hgiven] at count
    exact Decidable.not_not.1 count
  · exact ((Admissible.inside_iff length_cols).2 both).1
  · exact ((Admissible.inside_iff length_cols).2 both).2

theorem ofCoordinates_of_not_admissible (h : ¬ Admissible n rows cols ids) :
    ∃ f, ofCoordinates n rows cols ids = .error f ∧ f.kind = .construction := by
  obtain ⟨f, refused, kind⟩ := entriesWithin_of_not_admissible h
  rw [ofCoordinates, refused]
  exact ⟨f, rfl, kind⟩

theorem ofCoordinates_eq_ok_iff {a : Adjacency} :
    ofCoordinates n rows cols ids = .ok a ↔
      Admissible n rows cols ids ∧ a = ofEntries n (listed rows cols ids) := by
  by_cases h : Admissible n rows cols ids
  · rw [ofCoordinates_of_admissible h, Except.ok.injEq, eq_comm, and_iff_right h]
  · obtain ⟨f, hf, -⟩ := ofCoordinates_of_not_admissible h
    rw [hf]
    exact iff_of_false (by simp) fun admissible => h admissible.1

theorem mem_of_mem_listed {e : Entry} (h : e ∈ listed rows cols ids) :
    e.row ∈ rows ∧ e.col ∈ cols := by
  obtain ⟨i, hi⟩ := List.getElem?_of_mem h
  obtain ⟨p, id, hp, -, rfl⟩ := List.getElem?_zipWith_eq_some.1 hi
  exact List.of_mem_zip (List.mem_of_getElem? hp)

theorem Admissible.map_edge_listed (h : Admissible n rows cols ids) :
    (listed rows cols ids).map Entry.edge = ids.getD (List.range rows.length) := by
  have second : (listed rows cols ids).map Entry.edge =
      ((rows.zip cols).zip (ids.getD (List.range rows.length))).map Prod.snd := by
    rw [listed, zipEntries]
    generalize rows.zip cols = endpoints
    rw [List.map_zipWith, List.zip, List.map_zipWith]
  have lengths : (ids.getD (List.range rows.length)).length = (rows.zip cols).length := by
    rw [h.length_getD, List.length_zip, h.length_cols, Nat.min_self]
  rw [second, List.map_snd_zip (Nat.le_of_eq lengths)]

theorem Admissible.row_lt_of_mem (h : Admissible n rows cols ids) :
    ∀ e ∈ listed rows cols ids, e.row < n :=
  fun _ he => h.row_lt _ (mem_of_mem_listed he).1

theorem Admissible.wellFormed (h : Admissible n rows cols ids) :
    (ofEntries n (listed rows cols ids)).WellFormed :=
  wellFormed_ofEntries fun _ he => h.col_lt _ (mem_of_mem_listed he).2

end Coordinates

end GraphRelay.Adjacency
