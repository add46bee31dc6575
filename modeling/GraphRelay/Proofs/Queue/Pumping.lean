import GraphRelay.Proofs.Queue.Runs
import GraphRelay.Queue.Pump
import Mathlib.Data.List.Chain
import Mathlib.Logic.Relation

/-!
# Pumping gets everything through

A producer and a consumer on one queue never both wait, and in whichever order they take their steps,
the consumer gets the messages that fit, in their order, and the producer hears of all others that they
are too long.
-/
namespace GraphRelay.Pump

variable {p q : Pump} {capacity : Nat} {messages : List Message}

theorem produce_eq_some (h : p.produce = some q) :
    (p.unsent = [] ∧ p.queue.closed = false ∧ q = { p with queue := p.queue.close }) ∨
    ∃ m rest, p.unsent = m :: rest ∧
      ((∃ t, p.queue.push m = .accepted t ∧
          q = { p with queue := t, unsent := rest, outcomes := p.outcomes ++ [none] }) ∨
        ∃ f, p.queue.push m = .refused f ∧
          q = { p with unsent := rest, outcomes := p.outcomes ++ [some f],
                       released := p.released ++ m.release.toList }) := by
  unfold produce at h
  split at h
  · next none =>
    split at h
    · cases h
    · next opened => exact .inl ⟨none, by simpa using opened, (Option.some.inj h).symm⟩
  · next m rest next =>
    refine .inr ⟨m, rest, next, ?_⟩
    split at h
    · next t pushed => exact .inl ⟨t, pushed, (Option.some.inj h).symm⟩
    · next f refused => exact .inr ⟨f, refused, (Option.some.inj h).symm⟩
    · cases h

theorem produce_eq_none_iff : p.produce = none ↔
    (p.unsent = [] ∧ p.queue.closed = true) ∨
      ∃ m rest, p.unsent = m :: rest ∧ p.queue.push m = .waits := by
  unfold produce
  split
  · next none => simp [none]
  · next m rest next =>
    rw [next]
    split
    · next pushed => simp [pushed]
    · next refused => simp [refused]
    · next waits => simp [waits]

theorem consume_eq_some (h : p.consume = some q) : p.ended = false ∧
    ((∃ m t, p.queue.takeFirst = some (m, t) ∧
        q = { p with queue := t, popped := p.popped ++ [m],
                     released := p.released ++ m.release.toList }) ∨
      p.queue.closed = true ∧ p.queue.items = [] ∧ q = { p with ended := true }) := by
  unfold consume at h
  split at h
  · cases h
  next running =>
  refine ⟨by simpa using running, ?_⟩
  split at h
  · next m t popped =>
    exact .inl ⟨m, t, Queue.pop_eq_message_iff.1 popped, (Option.some.inj h).symm⟩
  · next saw =>
    obtain ⟨closed, empty⟩ := Queue.pop_eq_ended_iff.1 saw
    exact .inr ⟨closed, empty, (Option.some.inj h).symm⟩
  · cases h

theorem consume_eq_none_iff : p.consume = none ↔ p.ended = true ∨ p.queue.pop = .waits := by
  unfold consume
  split
  · next ended => simp [ended]
  next running =>
  rw [or_iff_right running]
  split <;> simp [*]

/-- Why a queue of that capacity does not take a message, if it does not. -/
def verdict (capacity : Nat) (m : Message) : Option Fault :=
  if capacity < m.length then some (.oversized m.length capacity) else none

/-- The messages that a queue of that capacity takes. -/
def fitting (capacity : Nat) (messages : List Message) : List Message :=
  messages.filter (·.length ≤ capacity)

/-- Nothing has been lost on the way, and nobody is through too early. -/
structure Underway (capacity : Nat) (messages : List Message) (p : Pump) : Prop where
  accounted : p.queue.Accounted
  capacity_eq : p.queue.capacity = capacity
  outcomes_eq :
    p.outcomes ++ p.unsent.map (verdict capacity) = messages.map (verdict capacity)
  popped_eq :
    p.popped ++ p.queue.items ++ fitting capacity p.unsent = fitting capacity messages
  sent_of_closed : p.queue.closed = true → p.unsent = []
  drained_of_ended : p.ended = true → p.queue.closed = true ∧ p.queue.items = []

theorem underway_start (capacity : Nat) (messages : List Message) :
    (start capacity messages).Underway capacity messages where
  accounted := Queue.accounted_empty capacity
  capacity_eq := rfl
  outcomes_eq := rfl
  popped_eq := rfl
  sent_of_closed := nofun
  drained_of_ended := nofun

theorem Underway.produce (h : p.Underway capacity messages) (made : p.produce = some q) :
    q.Underway capacity messages := by
  rcases produce_eq_some made with ⟨sent, opened, rfl⟩ |
    ⟨m, rest, next, ⟨t, pushed, rfl⟩ | ⟨f, refused, rfl⟩⟩
  · exact ⟨h.accounted.close, h.capacity_eq, h.outcomes_eq, h.popped_eq, fun _ => sent,
      fun ended => ⟨rfl, (h.drained_of_ended ended).2⟩⟩
  · obtain ⟨opened, room, rfl⟩ := Queue.push_eq_accepted_iff.1 pushed
    have bound := h.capacity_eq
    have fits : m.length ≤ capacity := by omega
    have running : p.ended ≠ true := fun ended => by simp [(h.drained_of_ended ended).1] at opened
    refine ⟨h.accounted.push pushed, bound, ?_, ?_, ?_, ?_⟩
    · rw [← h.outcomes_eq, next, List.map_cons, verdict, if_neg (Nat.not_lt_of_le fits),
        List.append_assoc, List.singleton_append]
    · rw [← h.popped_eq, next, fitting, fitting, List.filter_cons_of_pos (by simpa using fits)]
      simp
    · exact fun closed => by simp [opened] at closed
    · exact fun ended => absurd ended running
  · have bound := h.capacity_eq
    rcases Queue.push_eq_refused_iff.1 refused with ⟨long, rfl⟩ | ⟨-, closed, -⟩
    · rw [bound] at long
      refine ⟨h.accounted, bound, ?_, ?_, ?_, h.drained_of_ended⟩
      · rw [← h.outcomes_eq, next, List.map_cons, verdict, if_pos long, bound,
          List.append_assoc, List.singleton_append]
      · rw [← h.popped_eq, next, fitting, fitting,
          List.filter_cons_of_neg (by simpa using long)]
      · exact fun closed => by simp [h.sent_of_closed closed] at next
    · simp [h.sent_of_closed closed] at next

theorem Underway.consume (h : p.Underway capacity messages) (made : p.consume = some q) :
    q.Underway capacity messages := by
  rcases consume_eq_some made with ⟨running, ⟨m, t, taken, rfl⟩ | ⟨closed, empty, rfl⟩⟩
  · have front := (Queue.takeFirst_eq_some_iff.1 taken).1
    refine ⟨h.accounted.takeFirst taken, (Queue.takeFirst_capacity taken).trans h.capacity_eq,
      h.outcomes_eq, ?_, ?_, ?_⟩
    · rw [← h.popped_eq, front]
      simp
    · exact fun closed => h.sent_of_closed ((Queue.takeFirst_closed taken).symm.trans closed)
    · exact fun ended => by simp [running] at ended
  · exact ⟨h.accounted, h.capacity_eq, h.outcomes_eq, h.popped_eq, h.sent_of_closed,
      fun _ => ⟨closed, empty⟩⟩

theorem Underway.step (h : p.Underway capacity messages) (step : Step p q) :
    q.Underway capacity messages := by
  cases step with
  | produce made => exact h.produce made
  | consume made => exact h.consume made

/-- Some interleaving leads from the start to `p`. -/
def Reachable (capacity : Nat) (messages : List Message) : Pump → Prop :=
  Relation.ReflTransGen Step (start capacity messages)

theorem Reachable.underway (h : Reachable capacity messages p) : p.Underway capacity messages := by
  induction h with
  | refl => exact underway_start capacity messages
  | tail _ step ih => exact ih.step step

theorem isFinal_iff :
    p.isFinal = true ↔ p.unsent = [] ∧ p.queue.closed = true ∧ p.ended = true := by
  simp [isFinal, and_assoc]

/-- A consumer that waits has an empty queue before it, and a producer that waits a full one. -/
theorem Underway.isFinal (h : p.Underway capacity messages) (noMore : p.produce = none)
    (nothing : p.consume = none) : p.isFinal = true := by
  rw [isFinal_iff]
  rcases consume_eq_none_iff.1 nothing with ended | waits
  · have closed := (h.drained_of_ended ended).1
    exact ⟨h.sent_of_closed closed, closed, ended⟩
  · obtain ⟨opened, empty⟩ := Queue.pop_eq_waits_iff.1 waits
    exfalso
    rcases produce_eq_none_iff.1 noMore with ⟨-, closed⟩ | ⟨m, rest, -, full⟩
    · simp [opened] at closed
    · exact h.accounted.push_ne_waits empty full

/-- Where no step can be made, each side is through or waits. -/
theorem eq_none_of_stuck (stuck : ∀ q, ¬Step p q) : p.produce = none ∧ p.consume = none :=
  ⟨Option.eq_none_iff_forall_ne_some.2 fun q made => stuck q (.produce made),
    Option.eq_none_iff_forall_ne_some.2 fun q made => stuck q (.consume made)⟩

theorem no_step_of_isFinal (final : p.isFinal = true) : ¬Step p q := by
  obtain ⟨sent, closed, ended⟩ := isFinal_iff.1 final
  have noMore : p.produce = none := produce_eq_none_iff.2 (.inl ⟨sent, closed⟩)
  have nothing : p.consume = none := consume_eq_none_iff.2 (.inl ended)
  rintro (made | made)
  · simp [noMore] at made
  · simp [nothing] at made

/-- What a final state has come to. -/
theorem Underway.outcome (h : p.Underway capacity messages) (final : p.isFinal = true) :
    p.popped = fitting capacity messages ∧ p.outcomes = messages.map (verdict capacity) ∧
      p.queue.isFinished = true := by
  obtain ⟨sent, closed, ended⟩ := isFinal_iff.1 final
  have drained := (h.drained_of_ended ended).2
  refine ⟨?_, ?_, ?_⟩
  · rw [← h.popped_eq, sent, drained]
    simp [fitting]
  · rw [← h.outcomes_eq, sent, List.map_nil, List.append_nil]
  · simp [Queue.isFinished, closed, drained]

/-- How many steps are left at most: two for each message not pushed yet, one for each in the queue,
one for closing it and one for seeing the end. -/
def todo (p : Pump) : Nat :=
  2 * p.unsent.length + p.queue.items.length + (!p.queue.closed).toNat + (!p.ended).toNat

theorem Step.todo_lt (step : Step p q) : q.todo < p.todo := by
  rcases step with made | made
  · rcases produce_eq_some made with ⟨sent, opened, rfl⟩ |
      ⟨m, rest, next, ⟨t, pushed, rfl⟩ | ⟨f, refused, rfl⟩⟩
    · simp [todo, Queue.close, opened]
    · obtain ⟨-, -, rfl⟩ := Queue.push_eq_accepted_iff.1 pushed
      simp only [todo, next, List.length_append, List.length_cons, List.length_nil]
      omega
    · simp only [todo, next, List.length_cons]
      omega
  · rcases consume_eq_some made with ⟨running, ⟨m, t, taken, rfl⟩ | ⟨closed, empty, rfl⟩⟩
    · have front := (Queue.takeFirst_eq_some_iff.1 taken).1
      simp only [todo, front, Queue.takeFirst_closed taken, List.length_cons]
      omega
    · simp [todo, running]

/-- Where every step takes away from `left`, at most `left` steps follow each other. -/
theorem length_le_of_isChain {α : Type} {R : α → α → Prop} {left : α → Nat}
    (decreasing : ∀ a b, R a b → left b < left a) {a : α} {later : List α}
    (chain : List.IsChain R (a :: later)) : later.length ≤ left a := by
  induction later generalizing a with
  | nil => exact Nat.zero_le _
  | cons b later ih =>
    obtain ⟨step, chain⟩ := List.isChain_cons_cons.1 chain
    have less := decreasing a b step
    have rest := ih chain
    rw [List.length_cons]
    omega

theorem step_of_orElse (made : (p.produce.orElse fun () => p.consume) = some q) : Step p q := by
  rcases first : p.produce with _ | r
  · rw [first, Option.orElse_none] at made
    exact .consume made
  · rw [first, Option.orElse_some, Option.some.injEq] at made
    exact .produce (made ▸ first)

theorem steps_reaches (n : Nat) (p : Pump) : Relation.ReflTransGen Step p (steps n p) := by
  induction n generalizing p with
  | zero => exact .refl
  | succ n ih =>
    unfold steps
    split
    · next q made => exact .head (step_of_orElse made) (ih q)
    · exact .refl

/-- After as many steps as are left neither side has another one. -/
theorem steps_exhaust {n : Nat} (enough : p.todo ≤ n) :
    (steps n p).produce = none ∧ (steps n p).consume = none := by
  induction n generalizing p with
  | zero =>
    have stuck : ∀ q, ¬Step p q := fun q step => by
      have less := step.todo_lt
      omega
    exact eq_none_of_stuck stuck
  | succ n ih =>
    unfold steps
    split
    · next q made =>
      have less := (step_of_orElse made).todo_lt
      exact ih (by omega)
    · next none => simpa using none

theorem run_reachable (capacity : Nat) (messages : List Message) :
    Reachable capacity messages (run capacity messages) := steps_reaches _ _

theorem run_isFinal (capacity : Nat) (messages : List Message) :
    (run capacity messages).isFinal = true := by
  have enough : (start capacity messages).todo ≤ 2 * messages.length + 2 := Nat.le_refl _
  obtain ⟨noMore, nothing⟩ := steps_exhaust enough
  exact (run_reachable capacity messages).underway.isFinal noMore nothing

end GraphRelay.Pump
