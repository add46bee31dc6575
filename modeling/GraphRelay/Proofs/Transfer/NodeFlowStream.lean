import GraphRelay.Proofs.Transfer.LocalLinks
import GraphRelay.Proofs.Transfer.NodeFlow
import GraphRelay.Proofs.Transfer.Streams

/-!
# Streams of node flows

Node flows arrive in the order in which they were sent, with the vectors and the in-edges they had,
and after them the end of the stream.
-/
namespace GraphRelay

open FifoInbox FifoLinks LinkAction

namespace NodeFlowEvent

/-- The payloads as which an event travels. -/
def payloads : NodeFlowEvent → List Bytes
  | flow f => f.payloads
  | ended => [NodeFlow.endPayload]

def arrived : NodeFlowEvent → NodeFlowEvent
  | flow f => flow f.arrived
  | ended => ended

end NodeFlowEvent

namespace NodeFlow

variable {σ : Type} {f g : NodeFlow} {peer : PeerId} {s t : σ}

/-- The same vectors and the same rows of in-edges; edges with ids of their own are then listed alike
by id. -/
structure Alike (f g : NodeFlow) : Prop where
  nodeMapping : g.nodeMapping = f.nodeMapping
  edgeMapping : g.edgeMapping = f.edgeMapping
  layerOffsets : g.layerOffsets = f.layerOffsets
  flowOffsets : g.flowOffsets = f.flowOffsets
  rows : g.graph.view .incoming = f.graph.view .incoming
  edgesById : (f.graph.edges.map Edge.id).Nodup → g.graph.edgesById = f.graph.edgesById

theorem alike_arrived (reachable : f.graph.Reachable) : Alike f f.arrived := by
  have made : f.arrived.graph.Reachable :=
    .ofAdjacency (Adjacency.reachable_iff.2 (rows_wellFormed reachable)) .incoming none
  have rows : f.arrived.graph.view .incoming = f.graph.view .incoming := rfl
  refine ⟨rfl, rfl, rfl, rfl, rows, fun distinct => ?_⟩
  have same : f.arrived.graph.edges.Perm f.graph.edges :=
    (made.view .incoming).2.2.symm.trans (rows ▸ (reachable.view .incoming).2.2)
  exact Edge.mergeSort_idLE_eq same distinct

theorem edgeIds_lt_of_edges (reachable : f.graph.Reachable)
    (small : ∀ e ∈ f.graph.edges, e.id < Tensor.idLimit) :
    ∀ id ∈ f.rows.edgeIds, id < Tensor.idLimit := by
  intro id member
  rw [Adjacency.edgeIds, ← Adjacency.map_arc_entries, List.map_map] at member
  obtain ⟨entry, hentry, rfl⟩ := List.mem_map.1 member
  exact small _ ((reachable.view .incoming).2.2.mem_iff.1 (List.mem_map_of_mem hentry))

section Receiving

variable [Inbox σ]

theorem receive_yields_ended (h : Inbox.receive.Yields s (peer, endPayload) t) :
    receive.Yields s (peer, .ended) t :=
  receive_yields_ended_iff.2
    ⟨⟨.final, []⟩, rfl, (ArrayMeta.decode_eq_ok_iff.1 decode_endPayload).1, h⟩

theorem receives_flow (reachable : f.graph.Reachable) (sendable : f.Sendable)
    (arriving : Arriving f.vectors) :
    Receives (σ := σ) receive NodeFlowEvent.payloads (fun a b => a.arrived = b) (.flow f) :=
  ⟨_, _, rfl, fun _ _ _ heard => ⟨_, rfl, receive_yields_flow.2
    ⟨f.vectors, arriving, ofArrays_vectors reachable sendable, heard⟩⟩⟩

theorem receives_ended :
    Receives (σ := σ) receive NodeFlowEvent.payloads (fun a b => a.arrived = b) .ended := by
  refine ⟨endPayload, [], rfl, fun peer s t heard => ⟨.ended, rfl, ?_⟩⟩
  obtain ⟨u, heard, rfl⟩ := heard
  exact receive_yields_ended heard

/-- A node flow takes eight payloads: the announcement and the vectors. -/
theorem taken_of_receive [FifoInbox σ] (h : receive.Yields s (peer, .flow g) t) :
    ∃ taken, taken.length = 8 ∧ Dequeued peer taken (waiting s) (waiting t) := by
  obtain ⟨ts, arriving, -, heard⟩ := receive_yields_flow.1 h
  refine ⟨_, ?_, heard.dequeued⟩
  rw [List.length_cons, List.length_map, arriving.count]
  rfl

end Receiving

theorem length_payloads (f : NodeFlow) : f.payloads.length = 8 := rfl

/-- What a receiver meets of these node flows. -/
def stream (flows : List NodeFlow) : List NodeFlowEvent := flows.map .flow ++ [.ended]

theorem map_arrived_stream (flows : List NodeFlow) :
    (stream flows).map NodeFlowEvent.arrived = stream (flows.map arrived) := by
  rw [stream, stream, List.map_append, List.map_map, List.map_map]
  rfl

/-- The node flows leave for `peer` one after the other. -/
def SendsAll [Outbox σ] (peer : PeerId) : List NodeFlow → σ → σ → Prop :=
  Chain fun f s t => (send peer f).Yields s () t

variable [Outbox σ] [Inbox σ] [FifoLinks σ]

/-- Node flows that the links have room for are sent, and then the end of the stream. Receiving brings
them in order and then the end, each as one call that takes eight payloads, and nothing is left. -/
theorem stream_survives {flows : List NodeFlow} (sound : Sound s) (idle : Idle s)
    (reachable : ∀ f ∈ flows, f.graph.Reachable)
    (edgeIds : ∀ f ∈ flows, ∀ e ∈ f.graph.edges, e.id < Tensor.idLimit)
    (mappings : ∀ f ∈ flows, ∀ t ∈ f.mappings, t.isIdVector = true ∧ t.Consistent)
    (admits : Admits peer (flows.flatMap payloads ++ [endPayload]) s) :
    ∃ s₁ s₂ s₃ : σ, ∃ received, SendsAll peer flows s s₁ ∧ (sendEnd peer).Yields s₁ () s₂ ∧
      (waiting s₂ peer).length = 8 * flows.length + 1 ∧
      Drains receive s₂ ((stream received).map (peer, ·)) s₃ ∧
      Idle s₃ ∧ List.Forall₂ Alike flows received ∧
      ∀ (u v : σ) q g, receive.Yields u (q, .flow g) v →
        ∃ taken, taken.length = 8 ∧ Dequeued q taken (waiting u) (waiting v) := by
  obtain ⟨s₂, sends⟩ := admits
  obtain ⟨sound₂, short⟩ := sends.sound sound
  have short : ∀ f ∈ flows, ∀ payload ∈ f.payloads, payload.length < addressable :=
    fun f member payload own =>
      short payload (List.mem_append_left _ (List.mem_flatMap_of_mem member own))
  have sendable : ∀ f ∈ flows, f.Sendable := fun f member =>
    sendable_of_lengths (reachable f member) (fun t own => (mappings f member t own).1)
      (edgeIds_lt_of_edges (reachable f member) (edgeIds f member)) (short f member)
  obtain ⟨s₁, sendsFlows, sendsEnd⟩ := chain_append.1 sends
  have sent : SendsAll peer flows s s₁ := by
    simp only [SendsAll, send_yields]
    exact chain_and.2 ⟨sendable, sends_flatMap.1 sendsFlows⟩
  have events : waiting s₂ peer = (stream flows).flatMap NodeFlowEvent.payloads := by
    rw [sends.enqueued.own, idle peer, stream, List.flatMap_append, List.flatMap_map]
    rfl
  have received : ∀ e ∈ stream flows, Receives (σ := σ) receive
      NodeFlowEvent.payloads (fun a b => a.arrived = b) e := by
    intro e member
    rcases List.mem_append.1 member with flow | last
    · obtain ⟨f, own, rfl⟩ := List.mem_map.1 flow
      exact receives_flow (reachable f own) (sendable f own) (arriving_vectors (sendable f own)
        (fun t ht => (mappings f own t ht).2) (short f own))
    · obtain rfl := List.mem_singleton.1 last
      exact receives_ended
  obtain ⟨got, s₃, drains, each⟩ := drains_of_peer sound₂ events
    (fun q other => (sends.enqueued.others q other).trans (idle q)) received
  have came : (stream flows).map NodeFlowEvent.arrived = got := by
    rw [← List.forall₂_map_left_iff, List.forall₂_eq_eq_eq] at each
    exact each
  rw [← came, map_arrived_stream] at drains
  refine ⟨s₁, s₂, s₃, flows.map arrived, sent, sendEnd_yields.2 sendsEnd, ?_, drains,
    drains.idle_end, ?_, fun u v q g call => taken_of_receive call⟩
  · rw [sends.enqueued.own, idle peer]
    simp [List.length_flatMap, length_payloads, Nat.mul_comm]
  · rw [List.forall₂_map_right_iff, List.forall₂_same]
    exact fun f member => alike_arrived (reachable f member)

/-- A pair of parallel edges held by sources. -/
def twoEdges : NodeFlow :=
  ⟨.ofAdjacency ⟨[[⟨1, 4⟩, ⟨1, 2⟩], []], true⟩ .outgoing none, .ofInt64s [7, 9], .ofInt64s [4, 2],
    .ofInt64s [0, 1, 2], .ofInt64s [0, 2]⟩

/-- Nothing at all, held by destinations. -/
def noVertices : NodeFlow :=
  ⟨.ofAdjacency ⟨[], true⟩ .incoming (some true), .ofInt64s [], .ofInt64s [], .ofInt64s [-1],
    .ofInt64s []⟩

theorem two_flows_survive : ∃ s₁ s₂ s₃ : LocalLinks, ∃ received,
    SendsAll 3 [twoEdges, noVertices] (LocalLinks.empty 512) s₁ ∧ (sendEnd 3).Yields s₁ () s₂ ∧
      (s₂.waiting 3).length = 17 ∧ Drains receive s₂ ((stream received).map (3, ·)) s₃ ∧
      List.Forall₂ Alike [twoEdges, noVertices] received := by
  have sound : Sound (LocalLinks.empty 512) := LocalLinks.sound_empty (by decide)
  have reachable : ∀ f ∈ [twoEdges, noVertices], f.graph.Reachable := by
    simp only [List.forall_mem_cons]
    refine ⟨.ofAdjacency (Adjacency.reachable_iff.2 ⟨by decide, by decide⟩) _ _,
      .ofAdjacency (Adjacency.reachable_iff.2 ⟨by decide, by decide⟩) _ _, List.forall_mem_nil _⟩
  have edgeIds : ∀ f ∈ [twoEdges, noVertices], ∀ e ∈ f.graph.edges, e.id < Tensor.idLimit := by
    decide
  have mappings : ∀ f ∈ [twoEdges, noVertices], ∀ t ∈ f.mappings,
      t.isIdVector = true ∧ t.Consistent := by
    simp only [List.forall_mem_cons, NodeFlow.mappings, twoEdges, noVertices]
    exact ⟨⟨⟨rfl, rfl⟩, ⟨rfl, rfl⟩, ⟨rfl, rfl⟩, ⟨rfl, rfl⟩, List.forall_mem_nil _⟩,
      ⟨⟨rfl, rfl⟩, ⟨rfl, rfl⟩, ⟨rfl, rfl⟩, ⟨rfl, rfl⟩, List.forall_mem_nil _⟩, List.forall_mem_nil _⟩
  have room : (LocalLinks.empty 512).HasRoom 3
      ((List.flatMap payloads [twoEdges, noVertices] ++ [endPayload]).map List.length).sum :=
    ⟨rfl, by decide +kernel⟩
  obtain ⟨s₁, s₂, s₃, received, sent, ended, length, drains, -, alike, -⟩ :=
    stream_survives sound (fun _ => rfl) reachable edgeIds mappings room.exists_sends
  exact ⟨s₁, s₂, s₃, received, sent, ended, length, drains, alike⟩

end NodeFlow
end GraphRelay
