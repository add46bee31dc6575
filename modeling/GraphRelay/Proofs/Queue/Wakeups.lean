import GraphRelay.Proofs.Queue.Pumping

/-!
# Nobody oversleeps

A side of a pump that cannot go on goes to sleep, and only a change of the queue by the other side wakes
it. The wakeups are enough: a side never sleeps through a chance to go on.
-/
namespace GraphRelay.Pump

variable {p q : Pump} {capacity : Nat} {messages : List Message}

/-- A pump and which of its sides are asleep. -/
structure Sleepy where
  pump : Pump
  producerAsleep : Bool
  consumerAsleep : Bool

namespace Sleepy

/-- One step of a side that is awake. -/
inductive Turn : Sleepy → Sleepy → Prop where
  | produce {s : Sleepy} {q : Pump} : s.producerAsleep = false → s.pump.produce = some q →
      Turn s ⟨q, false, s.consumerAsleep && decide (q.queue = s.pump.queue)⟩
  | consume {s : Sleepy} {q : Pump} : s.consumerAsleep = false → s.pump.consume = some q →
      Turn s ⟨q, s.producerAsleep && decide (q.queue = s.pump.queue), false⟩
  /-- There is something to push and no room for it. -/
  | awaitRoom {s : Sleepy} : s.producerAsleep = false → s.pump.unsent ≠ [] →
      s.pump.produce = none → Turn s { s with producerAsleep := true }
  /-- There is nothing to pop and no end in sight. -/
  | awaitMessage {s : Sleepy} : s.consumerAsleep = false → s.pump.ended = false →
      s.pump.consume = none → Turn s { s with consumerAsleep := true }

def start (capacity : Nat) (messages : List Message) : Sleepy :=
  ⟨Pump.start capacity messages, false, false⟩

def Reachable (capacity : Nat) (messages : List Message) : Sleepy → Prop :=
  Relation.ReflTransGen Turn (start capacity messages)

variable {s t : Sleepy}

/-- Whoever sleeps could not go on if awake. -/
structure Alert (s : Sleepy) : Prop where
  producer : s.producerAsleep = true → s.pump.unsent ≠ [] ∧ s.pump.produce = none
  consumer : s.consumerAsleep = true → s.pump.ended = false ∧ s.pump.consume = none

theorem ended_of_produce (made : p.produce = some q) : q.ended = p.ended := by
  rcases produce_eq_some made with ⟨-, -, rfl⟩ | ⟨m, rest, -, ⟨t, -, rfl⟩ | ⟨f, -, rfl⟩⟩ <;> rfl

theorem unsent_of_consume (made : p.consume = some q) : q.unsent = p.unsent := by
  rcases consume_eq_some made with ⟨-, ⟨m, t, -, rfl⟩ | ⟨-, -, rfl⟩⟩ <;> rfl

/-- As long as the queue stays as it is, the consumer still has to wait. -/
theorem consume_eq_none_of_produce (running : p.ended = false) (nothing : p.consume = none)
    (made : p.produce = some q) (same : q.queue = p.queue) :
    q.ended = false ∧ q.consume = none := by
  have still : q.ended = false := (ended_of_produce made).trans running
  have waits : p.queue.pop = .waits :=
    (consume_eq_none_iff.1 nothing).resolve_left (by simp [running])
  exact ⟨still, consume_eq_none_iff.2 (.inr (same ▸ waits))⟩

/-- As long as the queue stays as it is, the producer still has to wait. -/
theorem produce_eq_none_of_consume (unsent : p.unsent ≠ []) (noMore : p.produce = none)
    (made : p.consume = some q) (same : q.queue = p.queue) :
    q.unsent ≠ [] ∧ q.produce = none := by
  have left := unsent_of_consume made
  obtain ⟨m, rest, next, waits⟩ :=
    (produce_eq_none_iff.1 noMore).resolve_left fun sent => unsent sent.1
  exact ⟨left ▸ unsent, produce_eq_none_iff.2 (.inr ⟨m, rest, left ▸ next, same ▸ waits⟩)⟩

theorem Alert.turn (h : s.Alert) (turn : Turn s t) : t.Alert := by
  cases turn with
  | produce awake made =>
    refine ⟨nofun, fun asleep => ?_⟩
    obtain ⟨asleep, same⟩ := (Bool.and_eq_true ..).mp asleep
    obtain ⟨running, nothing⟩ := h.consumer asleep
    exact consume_eq_none_of_produce running nothing made (of_decide_eq_true same)
  | consume awake made =>
    refine ⟨fun asleep => ?_, nofun⟩
    obtain ⟨asleep, same⟩ := (Bool.and_eq_true ..).mp asleep
    obtain ⟨unsent, noMore⟩ := h.producer asleep
    exact produce_eq_none_of_consume unsent noMore made (of_decide_eq_true same)
  | awaitRoom awake unsent noMore => exact ⟨fun _ => ⟨unsent, noMore⟩, h.consumer⟩
  | awaitMessage awake running nothing => exact ⟨h.producer, fun _ => ⟨running, nothing⟩⟩

theorem Reachable.alert (h : Reachable capacity messages s) : s.Alert := by
  induction h with
  | refl => exact ⟨nofun, nofun⟩
  | tail _ turn ih => exact ih.turn turn

/-- Sleep apart, a turn is a step or nothing. -/
theorem Turn.step (turn : Turn s t) : t.pump = s.pump ∨ Step s.pump t.pump := by
  cases turn with
  | produce _ made => exact .inr (.produce made)
  | consume _ made => exact .inr (.consume made)
  | awaitRoom | awaitMessage => exact .inl rfl

theorem Reachable.pump (h : Reachable capacity messages s) :
    Pump.Reachable capacity messages s.pump := by
  induction h with
  | refl => exact .refl
  | tail _ turn ih =>
    rcases turn.step with same | step
    · rw [same]
      exact ih
    · exact ih.tail step

theorem Reachable.exists_turn (h : Reachable capacity messages s)
    (unfinished : s.pump.isFinal = false) : ∃ t, Turn s t := by
  by_contra stuck
  have stuck : ∀ t, ¬Turn s t := not_exists.1 stuck
  have noMore : s.pump.produce = none := by
    cases asleep : s.producerAsleep with
    | true => exact (h.alert.producer asleep).2
    | false =>
      exact Option.eq_none_iff_forall_ne_some.2 fun q made => stuck _ (.produce asleep made)
  have nothing : s.pump.consume = none := by
    cases asleep : s.consumerAsleep with
    | true => exact (h.alert.consumer asleep).2
    | false =>
      exact Option.eq_none_iff_forall_ne_some.2 fun q made => stuck _ (.consume asleep made)
  have final := h.pump.underway.isFinal noMore nothing
  simp [unfinished] at final

theorem no_turn_of_isFinal (final : s.pump.isFinal = true) : ¬Turn s t := by
  obtain ⟨sent, -, ended⟩ := isFinal_iff.1 final
  intro turn
  cases turn with
  | produce _ made => exact no_step_of_isFinal final (.produce made)
  | consume _ made => exact no_step_of_isFinal final (.consume made)
  | awaitRoom _ unsent => exact unsent sent
  | awaitMessage _ running => simp [ended] at running

/-- A step may wake one side, which may then go back to sleep. -/
def todo (s : Sleepy) : Nat :=
  3 * s.pump.todo + (!s.producerAsleep).toNat + (!s.consumerAsleep).toNat

theorem Turn.todo_lt (turn : Turn s t) : t.todo < s.todo := by
  have awake (b : Bool) : b.toNat ≤ 1 := b.toNat_le
  cases turn with
  | @produce q alert made =>
    have less := Step.todo_lt (.produce made)
    have woken := awake (!(s.consumerAsleep && decide (q.queue = s.pump.queue)))
    simp only [todo, alert]
    omega
  | @consume q alert made =>
    have less := Step.todo_lt (.consume made)
    have woken := awake (!(s.producerAsleep && decide (q.queue = s.pump.queue)))
    simp only [todo, alert]
    omega
  | awaitRoom alert => simp [todo, alert]
  | awaitMessage alert => simp [todo, alert]

end Sleepy

theorem kind_of_verdict {m : Message} {f : Fault} (h : verdict capacity m = some f) :
    f.kind = .precondition := by
  unfold verdict at h
  split at h
  · cases h
    rfl
  · cases h

/-- However a producer and a consumer take turns, one of them can go on until both are through, and
they are through after a bounded number of steps. Then the consumer has the messages that fit, in their
order, the producer knows of every other one that it is too long, and the queue is finished. All that
remains true when a side that has to wait sleeps until the other one changes the queue. -/
theorem pump_completes (capacity : Nat) (messages : List Message) :
    (∀ p, Reachable capacity messages p → (p.isFinal = false ↔ ∃ q, Step p q)) ∧
    (∀ ps, List.IsChain Step (start capacity messages :: ps) →
      ps.length ≤ 2 * messages.length + 2) ∧
    (∀ p, Reachable capacity messages p → p.isFinal = true →
      p.popped = messages.filter (·.length ≤ capacity) ∧
      p.outcomes = messages.map (fun m =>
        if capacity < m.length then some (.oversized m.length capacity) else none) ∧
      (∀ f, some f ∈ p.outcomes → f.kind = .precondition) ∧ p.queue.isFinished = true) ∧
    (∀ s, Sleepy.Reachable capacity messages s → Reachable capacity messages s.pump ∧
      (s.pump.isFinal = false ↔ ∃ t, Sleepy.Turn s t)) ∧
    (∀ ss, List.IsChain Sleepy.Turn (Sleepy.start capacity messages :: ss) →
      ss.length ≤ 6 * messages.length + 8) ∧
    Reachable capacity messages (run capacity messages) ∧
    (run capacity messages).isFinal = true := by
  refine ⟨fun p reached => ⟨fun unfinished => ?_, fun ⟨q, step⟩ => ?_⟩, fun ps chain => ?_,
    fun p reached final => ?_, fun s reached => ⟨reached.pump, fun unfinished => ?_, fun ⟨t, turn⟩ => ?_⟩,
    fun ss chain => ?_, run_reachable capacity messages, run_isFinal capacity messages⟩
  · by_contra stuck
    obtain ⟨noMore, nothing⟩ := eq_none_of_stuck (not_exists.1 stuck)
    have final := reached.underway.isFinal noMore nothing
    simp [unfinished] at final
  · exact Bool.eq_false_iff.2 fun final => no_step_of_isFinal final step
  · exact length_le_of_isChain (fun _ _ step => Step.todo_lt step) chain
  · obtain ⟨popped, outcomes, finished⟩ := reached.underway.outcome final
    refine ⟨popped, outcomes, fun f member => ?_, finished⟩
    rw [outcomes] at member
    obtain ⟨m, -, refused⟩ := List.mem_map.1 member
    exact kind_of_verdict refused
  · exact reached.exists_turn unfinished
  · exact Bool.eq_false_iff.2 fun final => Sleepy.no_turn_of_isFinal final turn
  · have bound := length_le_of_isChain (fun _ _ turn => Sleepy.Turn.todo_lt turn) chain
    have whole : (Sleepy.start capacity messages).todo = 3 * (2 * messages.length + 2) + 1 + 1 := rfl
    omega

/-- A message that fills the queue, one that can never fit and an empty one; the consumer takes each
as soon as it can. -/
def threeMessages : List Message := [.ofBytes [1, 2], .ofBytes [7, 7, 7], .ofBytes []]

theorem threeMessages_reachable : Reachable 2 threeMessages
    ⟨⟨2, [], 0, true⟩, [], [none, some (.oversized 3 2), none],
      [.ofBytes [1, 2], .ofBytes []], [], true⟩ := by
  have first : Reachable 2 threeMessages ⟨⟨2, [], 0, false⟩, [.ofBytes [7, 7, 7], .ofBytes []],
      [none], [.ofBytes [1, 2]], [], false⟩ := .tail (.tail .refl (.produce rfl)) (.consume rfl)
  have second : Reachable 2 threeMessages ⟨⟨2, [], 0, false⟩, [],
      [none, some (.oversized 3 2), none], [.ofBytes [1, 2], .ofBytes []], [], false⟩ :=
    .tail (.tail (.tail first (.produce rfl)) (.produce rfl)) (.consume rfl)
  exact .tail (.tail second (.produce rfl)) (.consume rfl)

theorem threeMessages_complete : ∃ p, Reachable 2 threeMessages p ∧ p.isFinal = true ∧
    p.popped = threeMessages.filter (·.length ≤ 2) ∧ p.queue.isFinished = true := by
  have outcome := (pump_completes 2 threeMessages).2.2.1 _ threeMessages_reachable rfl
  exact ⟨_, threeMessages_reachable, rfl, outcome.1, outcome.2.2.2⟩

end GraphRelay.Pump
