import GraphRelay.Proofs.Transfer.LocalLinks
import GraphRelay.Proofs.Transfer.NodeFlow

/-!
# What is taken for a node flow

The payloads taken for a node flow are those as which that node flow is sent. The end of a stream is told
by the kind of an announcement alone, so an announcement of arrays is taken for the end as well, although
nobody ends a stream with one.
-/
namespace GraphRelay.NodeFlow

open FifoInbox LinkAction

/-- Only an end that announces no array is one that is sent. -/
theorem endTransmission_eq_iff {payload : Bytes} {m : ArrayMeta}
    (read : ArrayMeta.decode payload = .ok m) (final : m.kind = .final) :
    endTransmission = .ofPayloads [payload] ↔ m.shapes = [] := by
  obtain ⟨kind, shapes⟩ := m
  obtain rfl : kind = .final := final
  constructor
  · intro same
    rw [endTransmission_eq, Transmission.ofPayloads, Transmission.ofPayloads,
      Transmission.mk.injEq, List.cons.injEq] at same
    obtain ⟨⟨rfl, -⟩, -⟩ := same
    rw [decode_endPayload, Except.ok.injEq, ArrayMeta.mk.injEq] at read
    exact read.2.symm
  · rintro rfl
    obtain ⟨-, rfl⟩ := ArrayMeta.decode_eq_ok_iff.1 read
    exact endTransmission_eq

/-- The eight payloads taken for a node flow are the oldest of its sender and those as which it is sent.
Any announcement of the kind `final` is taken for the end of a stream; it is what a sender ends a stream
with exactly if it announces no arrays. Other queues are not touched. -/
theorem receive_takes_sent {σ : Type} [Inbox σ] [FifoInbox σ] (s t : σ) (peer : PeerId) :
    (∀ g, receive.Yields s (peer, .flow g) t → ∃ taken, taken.length = 8 ∧
      Dequeued peer taken (waiting s) (waiting t) ∧ g.transmission = .ofPayloads taken) ∧
    (receive.Yields s (peer, .ended) t ↔ ∃ payload m, Inbox.receive.Yields s (peer, payload) t ∧
      ArrayMeta.decode payload = .ok m ∧ m.kind = .final ∧
      Dequeued peer [payload] (waiting s) (waiting t) ∧
      (endTransmission = .ofPayloads [payload] ↔ m.shapes = [])) := by
  constructor
  · intro g received
    obtain ⟨ts, arriving, made, heard⟩ := receive_yields_flow.1 received
    obtain ⟨sendable, rfl⟩ := vectors_of_ofArrays arriving made
    exact ⟨g.payloads, rfl, heard.dequeued, transmission_of_sendable sendable⟩
  · rw [receive_yields_ended_iff]
    constructor
    · rintro ⟨m, final, fits, heard⟩
      have read : ArrayMeta.decode m.layout = .ok m := ArrayMeta.decode_eq_ok_iff.2 ⟨fits, rfl⟩
      exact ⟨_, m, heard, read, final, receive_dequeued heard, endTransmission_eq_iff read final⟩
    · rintro ⟨payload, m, heard, read, final, -⟩
      obtain ⟨fits, rfl⟩ := ArrayMeta.decode_eq_ok_iff.1 read
      exact ⟨m, final, fits, heard⟩

/-- An end of stream with the announcement of a vector. -/
def strayEnd : Bytes := ArrayMeta.layout ⟨.final, [[3]]⟩

def strayLinks : LocalLinks :=
  (LocalLinks.empty 64).setQueue 4 ⟨64, [.ofBytes strayEnd], 32, false⟩

theorem strayEnd_received :
    receive.Yields strayLinks (4, .ended) (strayLinks.setQueue 4 ⟨64, [], 0, false⟩) := rfl

/-- The vectors of a node flow without vertices. -/
def noVectors : List Tensor :=
  [.ofInt64s [], .ofInt64s [], .ofInt64s [0], .ofInt64s [], .ofInt64s [0], .ofInt64s [], .ofInt64s []]

def emptyFlowLinks : LocalLinks :=
  (LocalLinks.empty 256).setQueue 2 ⟨256, (payloadsOf noVectors).map .ofBytes, 144, false⟩

set_option maxRecDepth 2000 in
theorem emptyFlow_received : ∃ g,
    receive.Yields emptyFlowLinks (2, .flow g) (emptyFlowLinks.setQueue 2 ⟨256, [], 0, false⟩) :=
  ⟨_, rfl⟩

theorem taken_of_both :
    (∃ s t : LocalLinks, ∃ g taken, receive.Yields s (2, .flow g) t ∧ taken.length = 8 ∧
      g.transmission = .ofPayloads taken) ∧
    ∃ s t : LocalLinks, ∃ payload, receive.Yields s (4, .ended) t ∧
      Dequeued 4 [payload] s.waiting t.waiting ∧ payload.length = 32 := by
  constructor
  · obtain ⟨g, received⟩ := emptyFlow_received
    obtain ⟨taken, eight, -, sent⟩ := (receive_takes_sent _ _ 2).1 g received
    exact ⟨_, _, g, taken, received, eight, sent⟩
  · obtain ⟨payload, m, -, -, -, dequeued, -⟩ :=
      (receive_takes_sent _ _ 4).2.1 strayEnd_received
    have taken : [strayEnd] = [payload] := dequeued.own.trans (List.append_nil _)
    obtain ⟨rfl, -⟩ := List.cons.inj taken
    exact ⟨_, _, _, strayEnd_received, dequeued, rfl⟩

/-- So what is taken for the end of a stream is not always what ends one. -/
theorem strayEnd_taken_for_end :
    ¬∀ (s t : LocalLinks) (peer : PeerId),
      (∀ g, receive.Yields s (peer, .flow g) t → ∃ taken, taken.length = 8 ∧
        Dequeued peer taken s.waiting t.waiting ∧ g.transmission = .ofPayloads taken) ∧
      (receive.Yields s (peer, .ended) t → ∃ payload,
        Dequeued peer [payload] s.waiting t.waiting ∧
        endTransmission = .ofPayloads [payload]) := by
  intro claimed
  obtain ⟨payload, dequeued, sent⟩ := (claimed _ _ _).2 strayEnd_received
  have taken : [strayEnd] = [payload] := dequeued.own.trans (List.append_nil _)
  obtain ⟨rfl, -⟩ := List.cons.inj taken
  exact absurd sent (by decide)

end GraphRelay.NodeFlow
