import GraphRelay.Proofs.Adjacency.Reachable

/-!
# Bucketing coordinates

Coordinates become an adjacency whose entries are the listed edges, stably arranged by row, and the
entries of any adjacency that can be reached rebuild it.
-/
namespace GraphRelay.Adjacency

theorem WellFormed.admissible {a : Adjacency} (h : a.WellFormed) :
    Admissible a.vertexCount (a.entries.map Entry.row) (a.entries.map Entry.col)
      (some (a.entries.map Entry.edge)) := by
  refine ⟨by simp, fun given hgiven => ?_, fun r hr => ?_, fun c hc => ?_⟩
  · rw [← Option.mem_some.1 hgiven, List.length_map, List.length_map]
  · obtain ⟨e, he, rfl⟩ := List.mem_map.1 hr
    exact row_lt_of_mem_entries he
  · obtain ⟨e, he, rfl⟩ := List.mem_map.1 hc
    exact h.col_lt he

theorem WellFormed.ofCoordinates_entries {a : Adjacency} (h : a.WellFormed) :
    ofCoordinates a.vertexCount (a.entries.map Entry.row) (a.entries.map Entry.col)
      (some (a.entries.map Entry.edge)) = .ok a := by
  rw [ofCoordinates_of_admissible h.admissible, listed, Option.getD_some, zipEntries_map,
    h.ofEntries_entries]

/-- Bucketing is stable: admissible lists give the listed edges arranged by row, each row in the
order of the lists, all others are refused, and the entries of a reachable adjacency give it back. -/
theorem ofCoordinates_stable (n : Nat) (rows cols : List Nat) (ids : Option (List Nat)) :
    (Admissible n rows cols ids → ∃ a, ofCoordinates n rows cols ids = .ok a ∧ a.vertexCount = n ∧
      a.entries = (listed rows cols ids).mergeSort rowLE ∧ a.entries.Perm (listed rows cols ids) ∧
      ∀ v, a.row v = arcsOf v (listed rows cols ids)) ∧
    (¬ Admissible n rows cols ids →
      ∃ f, ofCoordinates n rows cols ids = .error f ∧ f.kind = .construction) ∧
    ∀ a, Reachable a →
      ofCoordinates a.vertexCount (a.entries.map Entry.row) (a.entries.map Entry.col)
        (some (a.entries.map Entry.edge)) = .ok a := by
  refine ⟨fun h => ?_, ofCoordinates_of_not_admissible, fun a h => h.wellFormed.ofCoordinates_entries⟩
  have arranged := entries_ofEntries h.row_lt_of_mem
  refine ⟨_, ofCoordinates_of_admissible h, vertexCount_ofEntries .., arranged, ?_, ?_⟩
  · rw [arranged]
    exact List.mergeSort_perm ..
  · exact row_ofEntries_of_lt h.row_lt_of_mem

/-- Two parallel edges of one id, a loop, and a row without entries. -/
theorem ofCoordinates_stable_four :
    Admissible 3 [2, 0, 2, 2] [0, 0, 1, 0] (some [7, 4, 5, 7]) ∧
    ¬ Admissible 3 [2, 0] [0, 3] none ∧
    Reachable ⟨[[⟨0, 4⟩], [], [⟨0, 7⟩, ⟨1, 5⟩, ⟨0, 7⟩]], false⟩ ∧
    (∃ a, ofCoordinates 3 [2, 0, 2, 2] [0, 0, 1, 0] (some [7, 4, 5, 7]) = .ok a ∧
      a.vertexCount = 3 ∧
      a.entries = [⟨0, 0, 4⟩, ⟨2, 0, 7⟩, ⟨2, 1, 5⟩, ⟨2, 0, 7⟩]) ∧
    (∃ f, ofCoordinates 3 [2, 0] [0, 3] none = .error f ∧ f.kind = .construction) ∧
    ofCoordinates 3 [0, 2, 2, 2] [0, 0, 1, 0] (some [4, 7, 5, 7]) =
      .ok ⟨[[⟨0, 4⟩], [], [⟨0, 7⟩, ⟨1, 5⟩, ⟨0, 7⟩]], false⟩ := by
  have admissible : Admissible 3 [2, 0, 2, 2] [0, 0, 1, 0] (some [7, 4, 5, 7]) :=
    ⟨rfl, by simp, by decide, by decide⟩
  have outside : ¬ Admissible 3 [2, 0] [0, 3] none := fun h => absurd (h.col_lt 3 (by simp)) (by decide)
  have reachable : Reachable ⟨[[⟨0, 4⟩], [], [⟨0, 7⟩, ⟨1, 5⟩, ⟨0, 7⟩]], false⟩ :=
    reachable_iff.2 ⟨by decide, by decide⟩
  refine ⟨admissible, outside, reachable, ?_, (ofCoordinates_stable 3 _ _ _).2.1 outside, ?_⟩
  · obtain ⟨a, ok, count, entries, -⟩ := (ofCoordinates_stable 3 _ _ _).1 admissible
    refine ⟨a, ok, count, entries.trans ?_⟩
    simp [listed, zipEntries, List.mergeSort, rowLE]
  · have entries : entries ⟨[[⟨0, 4⟩], [], [⟨0, 7⟩, ⟨1, 5⟩, ⟨0, 7⟩]], false⟩ =
        [⟨0, 0, 4⟩, ⟨2, 0, 7⟩, ⟨2, 1, 5⟩, ⟨2, 0, 7⟩] := rfl
    have rebuilt := (ofCoordinates_stable 0 [] [] none).2.2 _ reachable
    rw [entries] at rebuilt
    exact rebuilt

end GraphRelay.Adjacency
