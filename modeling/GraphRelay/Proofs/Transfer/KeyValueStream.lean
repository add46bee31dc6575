import GraphRelay.Proofs.Transfer.KeyValue
import GraphRelay.Proofs.Transfer.LocalLinks
import GraphRelay.Proofs.Transfer.Streams

/-!
# Streams of key/value messages

Messages arrive as they were sent, peer by peer, and nothing arrives that could not have been sent.
-/
namespace GraphRelay.KeyValue

open FifoInbox FifoLinks LinkAction

variable {σ : Type}

theorem receives [Inbox σ] {m : KeyValue} (h : m.Transferable) :
    Receives (σ := σ) receive payloads Eq m :=
  ⟨m.header, m.tail, rfl, fun _ _ _ heard => ⟨m, rfl, receive_yields.2 ⟨h, heard⟩⟩⟩

/-- The messages leave one after the other, each for its peer. -/
def SendsAll [Outbox σ] : List (PeerId × KeyValue) → σ → σ → Prop :=
  Chain fun op s t => (send op.1 op.2).Yields s () t

/-- Whatever was sent, receiving until nothing waits takes as many calls as there were messages, and
what comes from a peer is what was sent to it, field by field and in order. -/
theorem drains_sent [Outbox σ] [Inbox σ] [FifoLinks σ] {sent : List (PeerId × KeyValue)} {s s' : σ}
    (sound : Sound s) (idle : Idle s) (consistent : ∀ op ∈ sent, op.2.Consistent)
    (sends : SendsAll sent s s') :
    ∃ received s'', Drains receive s' received s'' ∧ received.length = sent.length ∧
      ∀ peer : PeerId, received.filter (·.1 = peer) = sent.filter (·.1 = peer) := by
  simp only [SendsAll, send_yields] at sends
  obtain ⟨sendable, chain⟩ := chain_and.1 sends
  have start : Pending payloads [] (waiting s) := idle
  obtain ⟨pending, sound, short⟩ := start.sends sound chain
  rw [List.nil_append] at pending
  have transferable : ∀ op ∈ sent, op.2.Transferable := fun op member =>
    ⟨sendable op member, consistent op member,
      representable_of_lengths (sendable op member) (short op member)⟩
  obtain ⟨received, s'', drains, length, each⟩ :=
    pending.drains (fun op member => receives (transferable op member)) sound
  refine ⟨received, s'', drains, length, fun peer => ?_⟩
  have same := (each peer).imp fun op arrival h => Prod.ext h.1 h.2
  exact (List.forall₂_eq_eq_eq ▸ same : _ = _).symm

/-- Four messages to two peers. -/
def fourMessages : List (PeerId × KeyValue) :=
  [(1, push 3 "w" (.ofInt64s [5, -7]) ⟨.float32, [2, 1], [0, 0, 128, 63, 0, 0, 0, 64]⟩),
    (0, barrier 3), (1, pull 3 "w" (.ofInt64s [])), (0, idExchange (-1) "socket://h:1")]

theorem consistent_fourMessages : ∀ op ∈ fourMessages, op.2.Consistent := by
  simp only [fourMessages, List.forall_mem_cons, Consistent]
  refine ⟨?_, ?_, ?_, ?_, List.forall_mem_nil _⟩
  · exact List.forall_mem_cons.2 ⟨rfl, List.forall_mem_cons.2 ⟨rfl, List.forall_mem_nil _⟩⟩
  · exact List.forall_mem_nil _
  · exact List.forall_mem_cons.2 ⟨rfl, List.forall_mem_nil _⟩
  · exact List.forall_mem_nil _

theorem drains_four_messages : ∃ s' received s'',
    SendsAll fourMessages (LocalLinks.empty 256) s' ∧
      Drains receive s' received s'' ∧ received.length = 4 ∧
      ∀ peer : PeerId, received.filter (·.1 = peer) = fourMessages.filter (·.1 = peer) := by
  obtain ⟨s', sends⟩ : ∃ s', SendsAll fourMessages (LocalLinks.empty 256) s' :=
    ⟨_, _, rfl, _, rfl, _, rfl, _, rfl, rfl⟩
  have sound : Sound (LocalLinks.empty 256) := LocalLinks.sound_empty (by decide)
  obtain ⟨received, s'', drains, length, each⟩ :=
    drains_sent sound (fun _ => rfl) consistent_fourMessages sends
  exact ⟨s', received, s'', sends, drains, length, each⟩

theorem exists_send {m : KeyValue} {l : LocalLinks} {peer : PeerId} (sendable : m.Sendable)
    (room : l.HasRoom peer (m.payloads.map List.length).sum) :
    ∃ l', (send peer m).Yields l () l' ∧ Enqueued peer m.payloads l.waiting l'.waiting := by
  obtain ⟨l', sent⟩ := room.exists_sends
  exact ⟨l', send_yields.2 ⟨sendable, sent⟩, sent.enqueued⟩

/-- What is received stood whole at the front of its sender's queue, in exactly the payloads that
sending it puts behind any queue with room for them. Whatever else waits plays no part. -/
theorem receive_takes_transmission [Inbox σ] [FifoInbox σ] {s t : σ} {peer : PeerId} {m : KeyValue}
    (h : receive.Yields s (peer, m) t) : ∃ payloads : List Bytes,
      waiting s peer = payloads ++ waiting t peer ∧ (∀ q, q ≠ peer → waiting t q = waiting s q) ∧
      m.transmission = .ofPayloads payloads ∧
      (∀ (q : PeerId) (l : LocalLinks), l.HasRoom q (payloads.map List.length).sum →
        ∃ l', (send q m).Yields l () l' ∧ l'.waiting q = l.waiting q ++ payloads) ∧
      m.validate = .ok () ∧
      ∀ tensor ∈ m.ids.toList ++ m.values.toList,
        sizeInBytes tensor.type tensor.shape = .ok tensor.data.length := by
  obtain ⟨⟨sendable, consistent, -⟩, heard⟩ := receive_yields.1 h
  have taken := heard.dequeued
  refine ⟨m.payloads, taken.own, taken.others, transmission_of_sendable sendable, fun q l room => ?_,
    validate_eq_ok_iff.2 sendable.complete, consistent⟩
  obtain ⟨l', sent, behind⟩ := exists_send sendable room
  exact ⟨l', sent, behind.own⟩

/-- A request from peer 2 with something else behind it; what waits at peer 5 is no message. -/
def strayLinks : LocalLinks :=
  let request := (pull 0 "w" (.ofInt64s [9])).payloads ++ [[1, 2]]
  ⟨64, [(2, ⟨64, request.map .ofBytes, 60, true⟩), (5, ⟨64, [.ofBytes [7]], 1, false⟩)]⟩

theorem receive_stray_request : ∃ t, receive.Yields strayLinks (2, pull 0 "w" (.ofInt64s [9])) t ∧
    ∃ payloads : List Bytes,
      strayLinks.waiting 2 = payloads ++ t.waiting 2 ∧
      (∀ q, q ≠ 2 → t.waiting q = strayLinks.waiting q) ∧
      (pull 0 "w" (.ofInt64s [9])).transmission = .ofPayloads payloads := by
  obtain ⟨t, call⟩ : ∃ t, receive.Yields strayLinks (2, pull 0 "w" (.ofInt64s [9])) t :=
    ⟨strayLinks.setQueue 2 ⟨64, [.ofBytes [1, 2]], 3, true⟩, by rfl⟩
  obtain ⟨payloads, own, others, whole, -⟩ := receive_takes_transmission call
  exact ⟨t, call, payloads, own, others, whole⟩

end GraphRelay.KeyValue
