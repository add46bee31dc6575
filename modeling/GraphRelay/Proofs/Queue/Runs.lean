import GraphRelay.Proofs.Queue.Operations
import Mathlib.Algebra.GroupWithZero.Nat

/-!
# Runs of a queue

Any number of producers and consumers share a queue, and each of their operations takes effect at
once. Who has to wait takes no part until the operation need not wait any more, so a run is a list of
what was done, in the order in which it was done.
-/
namespace GraphRelay.Queue

variable {q q' q'' : Queue} {m : Message} {f : Fault}

inductive Event where
  | accepted (m : Message)
  | refused (m : Message) (fault : Fault)
  | delivered (m : Message)
  /-- A consumer saw the end. -/
  | ended
  /-- A consumer that would not wait found nothing. -/
  | missed
  | closed
  deriving DecidableEq, Repr

/-- The message that came in. -/
def Event.incoming : Event → List Message
  | .accepted m => [m]
  | _ => []

/-- The message that went out. -/
def Event.outgoing : Event → List Message
  | .delivered m => [m]
  | _ => []

inductive Step : Queue → Event → Queue → Prop where
  | accept {q q' : Queue} {m : Message} : q.push m = .accepted q' → Step q (.accepted m) q'
  | refuse {q : Queue} {m : Message} {f : Fault} : q.push m = .refused f → Step q (.refused m f) q
  | deliver {q q' : Queue} {m : Message} : q.pop = .message m q' → Step q (.delivered m) q'
  | deliverNow {q q' : Queue} {m : Message} :
      q.takeFirst = some (m, q') → Step q (.delivered m) q'
  | finish {q : Queue} : q.pop = .ended → Step q .ended q
  | miss {q : Queue} : q.takeFirst = none → Step q .missed q
  | close {q : Queue} : Step q .closed q.close

inductive Run : Queue → List Event → Queue → Prop where
  | nil {q : Queue} : Run q [] q
  | cons {q q' q'' : Queue} {e : Event} {es : List Event} :
      Step q e q' → Run q' es q'' → Run q (e :: es) q''

variable {e : Event} {es : List Event}

/-- Everything that came in, in that order. -/
def accepted (es : List Event) : List Message := es.flatMap Event.incoming

/-- Everything that went out, in that order. -/
def delivered (es : List Event) : List Message := es.flatMap Event.outgoing

/-- Only an open queue with room takes a message, only its oldest one leaves, and nothing but closing
touches anything else. -/
theorem Step.effect (h : Step q e q') :
    (∃ m, e = .accepted m ∧ q.closed = false ∧ q.used + m.length ≤ q.capacity ∧
      q' = { q with items := q.items ++ [m], used := q.used + m.length }) ∨
    (∃ m, e = .delivered m ∧ q.items = m :: q'.items ∧
      q' = { q with items := q'.items, used := q.used - m.length }) ∨
    (e = .closed ∧ q' = q.close) ∨
    (q' = q ∧ e.incoming = [] ∧ e.outgoing = [] ∧ e ≠ .closed) := by
  cases h with
  | accept pushed => exact .inl ⟨_, rfl, push_eq_accepted_iff.1 pushed⟩
  | refuse refused => exact .inr (.inr (.inr ⟨rfl, rfl, rfl, nofun⟩))
  | deliver popped =>
    exact .inr (.inl ⟨_, rfl, takeFirst_eq_some_iff.1 (pop_eq_message_iff.1 popped)⟩)
  | deliverNow taken => exact .inr (.inl ⟨_, rfl, takeFirst_eq_some_iff.1 taken⟩)
  | finish saw => exact .inr (.inr (.inr ⟨rfl, rfl, rfl, nofun⟩))
  | miss found => exact .inr (.inr (.inr ⟨rfl, rfl, rfl, nofun⟩))
  | close => exact .inr (.inr (.inl ⟨rfl, rfl⟩))

/-- The running total is right and within the bound. -/
structure Accounted (q : Queue) : Prop where
  used_eq : q.used = (q.items.map Message.length).sum
  used_le : q.used ≤ q.capacity

theorem accounted_empty (capacity : Nat) : (empty capacity).Accounted := ⟨rfl, Nat.zero_le _⟩

theorem Accounted.close (h : q.Accounted) : q.close.Accounted := ⟨h.used_eq, h.used_le⟩

theorem Accounted.push (h : q.Accounted) (pushed : q.push m = .accepted q') : q'.Accounted := by
  obtain ⟨-, room, rfl⟩ := push_eq_accepted_iff.1 pushed
  have total := h.used_eq
  refine ⟨?_, room⟩
  simp only [List.map_append, List.map_cons, List.map_nil, List.sum_append, List.sum_cons,
    List.sum_nil]
  omega

theorem Accounted.takeFirst (h : q.Accounted) (taken : q.takeFirst = some (m, q')) :
    q'.Accounted := by
  obtain ⟨front, rest⟩ := takeFirst_eq_some_iff.1 taken
  have total := h.used_eq
  have bound := h.used_le
  rw [front, List.map_cons, List.sum_cons] at total
  rw [rest]
  constructor <;> simp only <;> omega

/-- An empty queue lets no producer wait. -/
theorem Accounted.push_ne_waits (h : q.Accounted) (empty : q.items = []) : q.push m ≠ .waits := by
  intro full
  obtain ⟨-, fits, exceeds⟩ := push_eq_waits_iff.1 full
  have unused : q.used = 0 := by rw [h.used_eq, empty, List.map_nil, List.sum_nil]
  omega

theorem Step.accounted (h : Step q e q') (accounted : q.Accounted) : q'.Accounted := by
  cases h with
  | accept pushed => exact accounted.push pushed
  | deliver popped => exact accounted.takeFirst (pop_eq_message_iff.1 popped)
  | deliverNow taken => exact accounted.takeFirst taken
  | close => exact accounted.close
  | refuse | finish | miss => exact accounted

theorem Step.capacity_eq (h : Step q e q') : q'.capacity = q.capacity := by
  rcases h.effect with ⟨m, -, -, -, rest⟩ | ⟨m, -, -, rest⟩ | ⟨-, rest⟩ | ⟨rest, -⟩ <;> rw [rest]
  rfl

/-- What went out in front of what is left is what was there in front of what came in. -/
theorem Step.conserves (h : Step q e q') : e.outgoing ++ q'.items = q.items ++ e.incoming := by
  rcases h.effect with ⟨m, rfl, -, -, rfl⟩ | ⟨m, rfl, front, -⟩ | ⟨rfl, rfl⟩ | ⟨rfl, no, none, -⟩
  · rfl
  · rw [front]
    exact (List.append_nil _).symm
  · exact (List.append_nil _).symm
  · rw [no, none, List.nil_append, List.append_nil]

theorem Step.closed_iff (h : Step q e q') : q'.closed = true ↔ q.closed = true ∨ e = .closed := by
  rcases h.effect with ⟨m, rfl, -, -, rfl⟩ | ⟨m, rfl, -, rest⟩ | ⟨rfl, rfl⟩ | ⟨rfl, -, -, other⟩
  · simp
  · rw [rest]
    simp
  · simp [Queue.close]
  · simp [other]

theorem Step.incoming_of_closed (h : Step q e q') (closed : q.closed = true) :
    e.incoming = [] := by
  rcases h.effect with ⟨m, -, opened, -⟩ | ⟨m, rfl, -⟩ | ⟨rfl, -⟩ | ⟨-, none, -⟩
  · rw [closed] at opened
    cases opened
  · rfl
  · rfl
  · exact none

namespace Run

theorem accounted (run : Run q es q') (start : q.Accounted) : q'.Accounted := by
  induction run with
  | nil => exact start
  | cons step _ ih => exact ih (step.accounted start)

theorem capacity_eq (run : Run q es q') : q'.capacity = q.capacity := by
  induction run with
  | nil => rfl
  | cons step _ ih => rw [ih, step.capacity_eq]

theorem conserves (run : Run q es q') : delivered es ++ q'.items = q.items ++ accepted es := by
  induction run with
  | nil => exact (List.append_nil _).symm
  | @cons q q' q'' e es step _ ih =>
    calc delivered (e :: es) ++ q''.items = e.outgoing ++ (delivered es ++ q''.items) := by
          rw [delivered, List.flatMap_cons, List.append_assoc, delivered]
      _ = (e.outgoing ++ q'.items) ++ accepted es := by rw [ih, List.append_assoc]
      _ = q.items ++ (e.incoming ++ accepted es) := by rw [step.conserves, List.append_assoc]
      _ = q.items ++ accepted (e :: es) := by rw [accepted, accepted, List.flatMap_cons]

theorem closed_iff (run : Run q es q') : q'.closed = true ↔ q.closed = true ∨ .closed ∈ es := by
  induction run with
  | nil => simp
  | cons step _ ih => rw [ih, step.closed_iff, List.mem_cons, or_assoc, eq_comm (b := Event.closed)]

theorem accepted_of_closed (run : Run q es q') (closed : q.closed = true) : accepted es = [] := by
  induction run with
  | nil => rfl
  | cons step _ ih =>
    rw [accepted, List.flatMap_cons, step.incoming_of_closed closed, List.nil_append]
    exact ih (step.closed_iff.2 (.inl closed))

end Run

/-- However its users take turns, a queue loses nothing and keeps the order. The bytes in it are
counted right and within its capacity; what went out and what is left are what came in. A message is
refused if it is too long or else if the queue is closed, and waits while an open queue has no room for
it. Closing is for good, and consumers see the end once all that came in has gone out. -/
theorem run_lossless {capacity : Nat} (run : Run (.empty capacity) es q) :
    q.used = (q.items.map Message.length).sum ∧ q.used ≤ capacity ∧
    delivered es ++ q.items = accepted es ∧
    (∀ m f, q.push m = .refused f ↔ (capacity < m.length ∧ f = .oversized m.length capacity) ∨
      (m.length ≤ capacity ∧ q.closed = true ∧ f = .queueClosed)) ∧
    (∀ m, q.push m = .waits ↔
      q.closed = false ∧ m.length ≤ capacity ∧ capacity < q.used + m.length) ∧
    (q.pop = .ended ↔ q.closed = true ∧ delivered es = accepted es) ∧
    (q.pop = .waits ↔ q.closed = false ∧ delivered es = accepted es) ∧
    (q.closed = true ↔ .closed ∈ es) ∧
    (q.closed = true → ∀ es' q', Run q es' q' → q'.closed = true ∧ accepted es' = []) := by
  obtain ⟨used_eq, used_le⟩ := run.accounted (accounted_empty capacity)
  have bound : q.capacity = capacity := run.capacity_eq
  have kept : delivered es ++ q.items = accepted es := run.conserves
  have drained : q.items = [] ↔ delivered es = accepted es := by
    rw [← kept, List.self_eq_append_right]
  refine ⟨used_eq, bound ▸ used_le, kept, fun m f => ?_, fun m => ?_, ?_, ?_, ?_, ?_⟩
  · rw [push_eq_refused_iff, bound]
  · rw [push_eq_waits_iff, bound]
  · rw [pop_eq_ended_iff, drained]
  · rw [pop_eq_waits_iff, drained]
  · rw [run.closed_iff]
    exact or_iff_right Bool.false_ne_true
  · intro closed es' q' later
    exact ⟨later.closed_iff.2 (.inl closed), later.accepted_of_closed closed⟩

/-- Three bytes of room: a message that fills it, an empty one beside it, one that can never fit, one
that had to wait, and one that comes too late. -/
def narrowEvents : List Event :=
  [.accepted (.ofBytes [1, 2, 3]), .accepted (.ofBytes []),
    .refused (.ofBytes [0, 0, 0, 0]) (.oversized 4 3), .delivered (.ofBytes [1, 2, 3]),
    .accepted (.ofBytes [9]), .closed, .refused (.ofBytes [5]) .queueClosed,
    .delivered (.ofBytes []), .delivered (.ofBytes [9]), .missed, .ended]

theorem narrow_run : Run (.empty 3) narrowEvents ⟨3, [], 0, true⟩ := by
  refine .cons (.accept rfl) (.cons (.accept rfl) (.cons (.refuse rfl) ?_))
  refine .cons (.deliver rfl) (.cons (.accept rfl) (.cons .close (.cons (.refuse rfl) ?_)))
  exact .cons (.deliverNow rfl) (.cons (.deliver rfl) (.cons (.miss rfl) (.cons (.finish rfl) .nil)))

theorem narrow_lossless : Run (.empty 3) narrowEvents ⟨3, [], 0, true⟩ ∧
    delivered narrowEvents ++ [] = accepted narrowEvents ∧ (accepted narrowEvents).length = 3 :=
  ⟨narrow_run, (run_lossless narrow_run).2.2.1, rfl⟩

end GraphRelay.Queue
