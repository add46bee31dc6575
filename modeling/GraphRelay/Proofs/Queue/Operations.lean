import GraphRelay.Queue.Basic

/-!
# What queue operations come to

For each answer of a queue the exact condition under which it is given, and the queue that is left.
-/
namespace GraphRelay.Queue

variable {q q' : Queue} {m : Message} {f : Fault}

theorem push_eq_accepted_iff : q.push m = .accepted q' ↔
    q.closed = false ∧ q.used + m.length ≤ q.capacity ∧
      q' = { q with items := q.items ++ [m], used := q.used + m.length } := by
  rw [push]
  split
  · next oversized => exact iff_of_false nofun fun h => by omega
  split
  · next closed => exact iff_of_false nofun fun h => by simp [h.1] at closed
  next opened =>
  split
  · next full => exact iff_of_false nofun fun h => by omega
  next room =>
  rw [Push.accepted.injEq, eq_comm]
  exact (and_iff_right (by simpa using opened)).symm.trans
    (and_congr_right' (and_iff_right (Nat.le_of_not_lt room)).symm)

/-- The size is looked at first. -/
theorem push_eq_refused_iff : q.push m = .refused f ↔
    (q.capacity < m.length ∧ f = .oversized m.length q.capacity) ∨
      (m.length ≤ q.capacity ∧ q.closed = true ∧ f = .queueClosed) := by
  rw [push]
  split
  · next oversized =>
    rw [Push.refused.injEq, eq_comm, and_iff_right oversized,
      or_iff_left fun h => Nat.not_le_of_lt oversized h.1]
  next fits =>
  rw [or_iff_right fun h => fits h.1, and_iff_right (Nat.le_of_not_lt fits)]
  split
  · next closed => rw [Push.refused.injEq, eq_comm, and_iff_right closed]
  next opened =>
  have never : ¬(q.closed = true ∧ f = .queueClosed) := fun h => opened h.1
  split <;> exact iff_of_false nofun never

theorem push_eq_waits_iff : q.push m = .waits ↔
    q.closed = false ∧ m.length ≤ q.capacity ∧ q.capacity < q.used + m.length := by
  rw [push]
  split
  · next oversized => exact iff_of_false nofun fun h => by omega
  next fits =>
  split
  · next closed => exact iff_of_false nofun fun h => by simp [h.1] at closed
  next opened =>
  split
  · next full => simp [full, Nat.le_of_not_lt fits, opened]
  · next room => exact iff_of_false nofun fun h => room h.2.2

/-- Who waits for room finds it once the queue is drained. -/
theorem push_drained_of_waits (full : q.push m = .waits) : ∃ q', q.drained.push m = .accepted q' := by
  obtain ⟨opened, fits, -⟩ := push_eq_waits_iff.1 full
  exact ⟨_, push_eq_accepted_iff.2 ⟨opened, by simpa [drained] using fits, rfl⟩⟩

theorem takeFirst_eq_some_iff : q.takeFirst = some (m, q') ↔
    q.items = m :: q'.items ∧ q' = { q with items := q'.items, used := q.used - m.length } := by
  rw [takeFirst]
  split
  · next empty => exact iff_of_false nofun fun h => by simp [empty] at h
  next m' rest items =>
  rw [Option.some.injEq, Prod.mk.injEq]
  constructor
  · rintro ⟨rfl, rfl⟩
    exact ⟨items, rfl⟩
  · rintro ⟨front, same⟩
    obtain ⟨rfl, rfl⟩ := List.cons.inj (items.symm.trans front)
    exact ⟨rfl, same.symm⟩

theorem takeFirst_eq_none_iff : q.takeFirst = none ↔ q.items = [] := by
  rw [takeFirst]
  split
  · next empty => exact iff_of_true rfl empty
  · next items => exact iff_of_false nofun fun empty => by simp [items] at empty

theorem takeFirst_closed (taken : q.takeFirst = some (m, q')) : q'.closed = q.closed := by
  rw [(takeFirst_eq_some_iff.1 taken).2]

theorem takeFirst_capacity (taken : q.takeFirst = some (m, q')) : q'.capacity = q.capacity := by
  rw [(takeFirst_eq_some_iff.1 taken).2]

theorem pop_eq_message_iff : q.pop = .message m q' ↔ q.takeFirst = some (m, q') := by
  rw [pop]
  split
  · next found => simp [found]
  · next none =>
    refine iff_of_false ?_ (by simp [none])
    split <;> exact nofun

theorem pop_eq_ended_iff : q.pop = .ended ↔ q.closed = true ∧ q.items = [] := by
  rw [pop, ← takeFirst_eq_none_iff]
  split
  · next found => simp [found]
  · next none =>
    split
    · next closed => simp [none, closed]
    · next opened => simp [opened]

theorem pop_eq_waits_iff : q.pop = .waits ↔ q.closed = false ∧ q.items = [] := by
  rw [pop, ← takeFirst_eq_none_iff]
  split
  · next found => simp [found]
  · next none =>
    split
    · next closed => simp [closed]
    · next opened => simp [none, opened]

end GraphRelay.Queue
