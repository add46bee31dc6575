import GraphRelay.Proofs.Transfer.KeyValue
import GraphRelay.Proofs.Transfer.LocalLinks
import GraphRelay.Proofs.Transfer.NodeFlow

/-!
# What a rejected transfer leaves behind

A transfer is rejected because of its own fault or because a payload can never fit. Payloads that were
sent before that stay on the link, so nothing is left behind exactly when the first payload was never
accepted. Key/value messages are looked at after their header has left, and no transfer compares its
later payloads with the capacity before it begins.
-/
namespace GraphRelay

namespace LocalLinks

variable {l l' : LocalLinks} {peer : PeerId} {f : Fault} {first : Bytes} {rest : List Bytes}

theorem waiting_setQueue_queue (l : LocalLinks) (peer : PeerId) :
    (l.setQueue peer (l.queue peer)).waiting = l.waiting := by
  funext r
  rw [waiting, waiting, queue_setQueue]
  split
  · next same => rw [same]
  · rfl

theorem length_le_of_sends (h : Sends peer (first :: rest) l l') :
    first.length ≤ (l.queue peer).capacity := by
  obtain ⟨u, sent, -⟩ := h
  obtain ⟨q, pushed, -⟩ := send_yields.1 sent
  have fits : (l.queue peer).used + first.length ≤ (l.queue peer).capacity :=
    (Queue.push_eq_accepted_iff.1 pushed).2.1
  omega

/-- A rejected transmission has sent its first payloads, and none exactly if the first could never
fit. -/
theorem sent_of_rejected {m : Transmission} (h : (m.deliver peer).Refuses l f l')
    (rejected : f.kind = .precondition) : ∃ sent, sent <+: m.payloads ∧
      Enqueued peer sent l.waiting l'.waiting ∧ (l'.queue peer = l.queue peer ↔ sent = []) ∧
      (sent = [] ↔ ∀ first ∈ m.payloads.head?, (l.queue peer).capacity < first.length) := by
  have kept : ∀ {sent : List Bytes}, Enqueued peer sent l.waiting l'.waiting →
      l'.queue peer = l.queue peer → sent = [] := by
    intro sent behind same
    have own := behind.own
    rw [waiting, waiting, same] at own
    exact List.append_right_eq_self.1 own.symm
  have none_sent : ∀ {sent : List Bytes} {u : LocalLinks}, Sends peer sent l u →
      (∀ first ∈ sent.head?, (l.queue peer).capacity < first.length) → sent = [] := by
    intro sent u sends long
    cases sent with
    | nil => rfl
    | cons first rest => exact absurd (length_le_of_sends sends) (Nat.not_le.2 (long first rfl))
  rcases Transmission.deliver_refuses.1 h with ⟨-, sends⟩ |
    ⟨sent, payload, unsent, u, split, sends, refused⟩
  · refine ⟨m.payloads, List.prefix_rfl, sends.enqueued, ⟨kept sends.enqueued, fun none => ?_⟩,
      fun none => by simp [none], none_sent sends⟩
    rw [none] at sends
    obtain rfl : l' = l := sends
    rfl
  · obtain ⟨rfl, why⟩ := send_refuses refused
    have behind : Enqueued peer sent l.waiting (u.setQueue peer (u.queue peer)).waiting := by
      rw [waiting_setQueue_queue]
      exact sends.enqueued
    have long : (u.queue peer).capacity < payload.length := by
      rcases why with long | rfl | rfl
      · exact long
      · cases rejected
      · cases rejected
    refine ⟨sent, ⟨payload :: unsent, split.symm⟩, behind, ⟨kept behind, fun none => ?_⟩, ?_, ?_⟩
    · subst none
      obtain rfl : u = l := sends
      rw [queue_setQueue_self]
    · rintro rfl
      obtain rfl : u = l := sends
      simpa [split] using long
    · intro long
      refine none_sent sends fun first member => long first ?_
      rw [split, List.head?_append, Option.mem_def.1 member]
      rfl

end LocalLinks

/-- The header goes first unless the sections are wrong. -/
theorem KeyValue.first_of_transmission (m : KeyValue) : m.transmission.payloads <+: m.payloads ∧
    ∀ n : Nat, (∀ first ∈ m.transmission.payloads.head?, n < first.length) ↔
      m.validate ≠ .ok () ∨ n < m.header.length := by
  rw [ne_eq, validate_eq_ok_iff]
  rcases m.transmission_cases with ⟨incomplete, f, stopped, -⟩ | ⟨complete, -, f, stopped, -⟩ |
    ⟨sendable, whole⟩
  · rw [stopped]
    exact ⟨List.nil_prefix, fun n => iff_of_true nofun (.inl incomplete)⟩
  · rw [stopped]
    refine ⟨⟨m.tail, rfl⟩, fun n => ?_⟩
    simp [complete]
  · rw [whole]
    refine ⟨List.prefix_rfl, fun n => ?_⟩
    simp [Transmission.ofPayloads, payloads, sendable.complete]

/-- The announcement goes first unless the vectors are wrong. -/
theorem NodeFlow.first_of_transmission (flow : NodeFlow) :
    flow.transmission.payloads <+: flow.payloads ∧
    ∀ n : Nat, (∀ first ∈ flow.transmission.payloads.head?, n < first.length) ↔
      (∃ e, flow.arrays = .error e) ∨
        n < (ArrayMeta.ofTensors .nodeFlow flow.vectors).layout.length := by
  rcases flow.transmission_cases with ⟨e, unfit, stopped⟩ | ⟨sendable, whole⟩
  · rw [stopped]
    exact ⟨List.nil_prefix, fun n => iff_of_true nofun (.inl ⟨e, unfit⟩)⟩
  · rw [whole]
    refine ⟨List.prefix_rfl, fun n => ?_⟩
    simp [Transmission.ofPayloads, payloads, payloadsOf, arrays_eq_ok_iff.2 ⟨sendable, rfl⟩]

/-- What a rejected key/value message or node flow leaves behind: its first payloads, behind what
waited before. The queue is as it was exactly if nothing could be sent in the first place, because the
sections of the message do not fit its kind or the node flow is not made of ids, or if the first
payload alone exceeds the capacity. -/
theorem rejected_keeps_queue_iff {l l' : LocalLinks} {peer : PeerId} {f : Fault}
    (rejected : f.kind = .precondition) :
    (∀ m : KeyValue, (m.send peer).Refuses l f l' →
      (l'.queue peer = l.queue peer ↔
        m.validate ≠ .ok () ∨ (l.queue peer).capacity < m.header.length) ∧
      ∃ sent, sent <+: m.payloads ∧ Enqueued peer sent l.waiting l'.waiting) ∧
    ∀ flow : NodeFlow, (flow.send peer).Refuses l f l' →
      (l'.queue peer = l.queue peer ↔ (∃ e, flow.arrays = .error e) ∨
        (l.queue peer).capacity < (ArrayMeta.ofTensors .nodeFlow flow.vectors).layout.length) ∧
      ∃ sent, sent <+: flow.payloads ∧ Enqueued peer sent l.waiting l'.waiting := by
  constructor
  · intro m refused
    obtain ⟨sent, begins, behind, same, none⟩ := LocalLinks.sent_of_rejected refused rejected
    obtain ⟨part, first⟩ := m.first_of_transmission
    exact ⟨same.trans (none.trans (first _)), sent, begins.trans part, behind⟩
  · intro flow refused
    obtain ⟨sent, begins, behind, same, none⟩ := LocalLinks.sent_of_rejected refused rejected
    obtain ⟨part, first⟩ := flow.first_of_transmission
    exact ⟨same.trans (none.trans (first _)), sent, begins.trans part, behind⟩

/-- New values whose ids are not ids but a number. -/
def floatIds : KeyValue :=
  .push 0 "w" ⟨.float32, [1], [0, 0, 0, 0]⟩ ⟨.float32, [1], [0, 0, 0, 0]⟩

/-- A vertex that is said to come from seventeen parents. -/
def seventeenParents : NodeFlow :=
  ⟨.ofAdjacency ⟨[[]], true⟩ .outgoing none, .ofInt64s (List.replicate 17 0), .ofInt64s [],
    .ofInt64s [0, 1], .ofInt64s [0]⟩

theorem floatIds_refused : (floatIds.send 0).Refuses (LocalLinks.empty 128) (.idArray "id")
    ((LocalLinks.empty 128).setQueue 0 ⟨128, [.ofBytes floatIds.header], 17, false⟩) := by
  rfl

set_option maxRecDepth 2000 in
theorem seventeenParents_refused :
    (seventeenParents.send 1).Refuses (LocalLinks.empty 128) (.oversized 136 128)
      ((LocalLinks.empty 128).setQueue 1 ⟨128, [.ofBytes
        (ArrayMeta.ofTensors .nodeFlow seventeenParents.vectors).layout], 128, false⟩) := by
  rfl

/-- Both are rejected after something has left for the peer. -/
theorem rejected_after_first_payload :
    (∃ l' f, f.kind = .precondition ∧ (floatIds.send 0).Refuses (LocalLinks.empty 128) f l' ∧
      l'.queue 0 ≠ (LocalLinks.empty 128).queue 0) ∧
    ∃ l' f, f.kind = .precondition ∧ (seventeenParents.send 1).Refuses (LocalLinks.empty 128) f l' ∧
      l'.queue 1 ≠ (LocalLinks.empty 128).queue 1 := by
  refine ⟨⟨_, _, rfl, floatIds_refused, fun same => ?_⟩,
    _, _, rfl, seventeenParents_refused, fun same => ?_⟩
  · rcases ((rejected_keeps_queue_iff rfl).1 _ floatIds_refused).1.1 same with invalid | long
    · exact invalid rfl
    · exact absurd long (by decide)
  · rcases ((rejected_keeps_queue_iff rfl).2 _ seventeenParents_refused).1.1 same with
      ⟨e, refused⟩ | long
    · cases refused
    · exact absurd long (by decide +kernel)

/-- So a rejected transfer is not one that sent nothing. -/
theorem rejected_push_leaves_header :
    ¬((∀ (l l' : LocalLinks) (peer : PeerId) (f : Fault) (m : KeyValue),
        (m.send peer).Refuses l f l' → f.kind = .precondition → l'.queue peer = l.queue peer) ∧
      ∀ (l l' : LocalLinks) (peer : PeerId) (f : Fault) (flow : NodeFlow),
        (flow.send peer).Refuses l f l' → f.kind = .precondition → l'.queue peer = l.queue peer) := by
  rintro ⟨kept, -⟩
  have same := kept _ _ _ _ _ floatIds_refused rfl
  exact absurd same (by decide)

end GraphRelay
