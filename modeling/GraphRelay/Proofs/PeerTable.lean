import GraphRelay.PeerTable

/-!
# Looking up what was entered

Entering changes what is known about one peer. A table in ascending order stays in order, and then
the entry that is found for a peer is the only one.
-/
namespace GraphRelay.PeerTable

variable {α : Type} {peer q : PeerId} {a b : α} {table : PeerTable α} {entry : PeerId × α}

theorem find?_nil : find? ([] : PeerTable α) q = none := rfl

theorem find?_cons :
    find? (entry :: table) q = if entry.1 = q then some entry.2 else find? table q := by
  rw [find?, List.find?_cons]
  by_cases own : entry.1 = q <;> simp [own, find?]

/-- Entering overwrites one peer, whatever the order of the table. -/
theorem find?_insert :
    find? (insert peer a table) q = if q = peer then some a else find? table q := by
  induction table with
  | nil => simp only [insert, find?_cons, eq_comm]
  | cons entry rest ih =>
    obtain ⟨p, b⟩ := entry
    rw [insert]
    split
    · rw [find?_cons]
      simp only [eq_comm]
    split
    · next same =>
      subst same
      simp only [find?_cons, eq_comm]
      split <;> rfl
    · next other =>
      rw [find?_cons, ih, find?_cons]
      by_cases own : p = q
      · subst own
        simp [Ne.symm other]
      · simp [own]

theorem mem_insert (h : entry ∈ insert peer a table) : entry = (peer, a) ∨ entry ∈ table := by
  induction table with
  | nil => exact .inl (by simpa [insert] using h)
  | cons first rest ih =>
    obtain ⟨p, b⟩ := first
    rw [insert] at h
    split at h
    · exact List.mem_cons.1 h
    split at h
    · exact (List.mem_cons.1 h).imp id (List.mem_cons_of_mem _)
    · rcases List.mem_cons.1 h with rfl | later
      · exact .inr List.mem_cons_self
      · exact (ih later).imp id (List.mem_cons_of_mem _)

/-- Peers ascend, so no peer has two entries. -/
def Ascending (table : PeerTable α) : Prop := table.Pairwise fun x y => x.1 < y.1

theorem Ascending.insert (h : Ascending table) : Ascending (table.insert peer a) := by
  induction table with
  | nil => exact List.pairwise_singleton _ _
  | cons first rest ih =>
    obtain ⟨p, b⟩ := first
    obtain ⟨least, ascending⟩ := List.pairwise_cons.1 h
    rw [PeerTable.insert]
    split
    · next before =>
      refine List.pairwise_cons.2 ⟨?_, h⟩
      rintro entry (_ | ⟨_, member⟩)
      · exact before
      · exact Int32.lt_trans before (least entry member)
    next after =>
    split
    · next same =>
      subst same
      exact List.pairwise_cons.2 ⟨least, ascending⟩
    · next other =>
      refine List.pairwise_cons.2 ⟨fun entry member => ?_, ih ascending⟩
      rcases mem_insert member with rfl | member
      · exact Int32.lt_of_le_of_ne (Int32.not_lt.1 after) (Ne.symm other)
      · exact least entry member

theorem Ascending.find?_of_mem (h : Ascending table) (member : (q, a) ∈ table) :
    table.find? q = some a := by
  induction table with
  | nil => cases member
  | cons first rest ih =>
    obtain ⟨least, ascending⟩ := List.pairwise_cons.1 h
    rw [find?_cons]
    rcases List.mem_cons.1 member with rfl | later
    · exact if_pos rfl
    · have apart : first.1 ≠ q := Int32.ne_of_lt (least _ later)
      rw [if_neg apart]
      exact ih ascending later

theorem mem_of_find? (h : table.find? q = some a) : (q, a) ∈ table := by
  obtain ⟨⟨p, b⟩, found, rfl⟩ := Option.map_eq_some_iff.1 h
  have own : p = q := by simpa using List.find?_some found
  subst own
  exact List.mem_of_find?_eq_some found

end GraphRelay.PeerTable
