import GraphRelay.Proofs.Graph.Edges
import GraphRelay.Proofs.Tensor.Buffers
import GraphRelay.Proofs.Transfer.InOrder
import GraphRelay.Transfer.NodeFlow

/-!
# Node flows in transfer

A node flow travels as the announcement of seven vectors and the vectors. It is received exactly when
such payloads come and the vectors make up a node flow; the graph that arrives has the in-edges of the
one that was sent, row by row.
-/
namespace GraphRelay.NodeFlow

open LinkAction Tensor

variable {f g : NodeFlow}

/-- The rows of in-edges that travel. -/
def rows (f : NodeFlow) : Adjacency := f.graph.view .incoming

/-- The vectors that describe the sample. -/
def mappings (f : NodeFlow) : List Tensor :=
  [f.nodeMapping, f.edgeMapping, f.layerOffsets, f.flowOffsets]

/-- All seven vectors, in the order they travel. -/
def vectors (f : NodeFlow) : List Tensor :=
  f.mappings ++ [f.rows.offsets, f.rows.neighbors, f.rows.edgeIds].map fun ids =>
    .ofInt64s (ids.map .ofNat)

/-- The payloads as which vectors travel. -/
def payloadsOf (vectors : List Tensor) : List Bytes :=
  (ArrayMeta.ofTensors .nodeFlow vectors).layout :: vectors.map Tensor.data

/-- The payloads as which a node flow travels. -/
def payloads (f : NodeFlow) : List Bytes := payloadsOf f.vectors

/-- What has to hold of a node flow for it to be sent. -/
structure Sendable (f : NodeFlow) : Prop where
  mappings : ∀ t ∈ f.mappings, t.isIdVector = true
  offsets : ∀ i ∈ f.rows.offsets, i < Tensor.idLimit
  neighbors : ∀ v ∈ f.rows.neighbors, v < Tensor.idLimit
  edgeIds : ∀ e ∈ f.rows.edgeIds, e < Tensor.idLimit

section Sending

theorem requireIdVector_eq_ok_iff {what : String} {t : Tensor} {u : Unit} :
    requireIdVector what t = .ok u ↔ t.isIdVector = true := by
  rw [requireIdVector]
  split
  · next vector => exact iff_of_true rfl vector
  · next other => exact iff_of_false nofun other

theorem arrays_eq_ok_iff {ts : List Tensor} : f.arrays = .ok ts ↔ f.Sendable ∧ ts = f.vectors := by
  simp only [arrays, bind_ok_iff, requireIdVector_eq_ok_iff, Tensor.ofIds_eq_ok_iff]
  constructor
  · rintro ⟨⟨⟩, node, ⟨⟩, edge, ⟨⟩, layer, ⟨⟩, flow, _, ⟨offsets, rfl⟩, _, ⟨neighbors, rfl⟩, _,
      ⟨edgeIds, rfl⟩, done⟩
    exact ⟨⟨by simp [mappings, *], offsets, neighbors, edgeIds⟩, (Except.ok.inj done).symm⟩
  · rintro ⟨⟨vectors, offsets, neighbors, edgeIds⟩, rfl⟩
    simp only [mappings, List.forall_mem_cons] at vectors
    obtain ⟨node, edge, layer, flow, -⟩ := vectors
    exact ⟨(), node, (), edge, (), layer, (), flow, _, ⟨offsets, rfl⟩, _, ⟨neighbors, rfl⟩, _,
      ⟨edgeIds, rfl⟩, rfl⟩

theorem few_vectors (f : NodeFlow) :
    (ArrayMeta.ofTensors .nodeFlow f.vectors).shapes.length < 0x80000000 := by
  simp [ArrayMeta.ofTensors, vectors, mappings]

/-- A node flow is sent whole or not at all. -/
theorem transmission_cases (f : NodeFlow) :
    (∃ e, f.arrays = .error e ∧ f.transmission = .refused e) ∨
    (f.Sendable ∧ f.transmission = .ofPayloads f.payloads) := by
  rw [transmission]
  cases fit : f.arrays with
  | error e => exact .inl ⟨e, rfl, rfl⟩
  | ok ts =>
    obtain ⟨sendable, rfl⟩ := arrays_eq_ok_iff.1 fit
    have announced : (ArrayMeta.ofTensors .nodeFlow f.vectors).encode =
        .ok (ArrayMeta.ofTensors .nodeFlow f.vectors).layout :=
      ArrayMeta.encode_eq_ok_iff.2 ⟨f.few_vectors, rfl⟩
    refine .inr ⟨sendable, ?_⟩
    change Transmission.ofExcept
      ((ArrayMeta.ofTensors .nodeFlow f.vectors).encode >>= fun _ => _) = _
    rw [announced]
    rfl

theorem transmission_of_sendable (sendable : f.Sendable) :
    f.transmission = .ofPayloads f.payloads := by
  rcases f.transmission_cases with ⟨e, unfit, -⟩ | ⟨-, whole⟩
  · rw [arrays_eq_ok_iff.2 ⟨sendable, rfl⟩] at unfit
    cases unfit
  · exact whole

variable {σ : Type} [Outbox σ] {peer : PeerId} {s t : σ}

theorem send_yields : (send peer f).Yields s () t ↔ f.Sendable ∧ Sends peer f.payloads s t := by
  rw [send, Transmission.deliver_yields]
  rcases f.transmission_cases with ⟨e, unfit, stopped⟩ | ⟨sendable, whole⟩
  · rw [stopped]
    refine iff_of_false nofun fun h => ?_
    rw [arrays_eq_ok_iff.2 ⟨h.1, rfl⟩] at unfit
    cases unfit
  · rw [whole]
    exact and_congr_left' (iff_of_true rfl sendable)

/-- What ends a stream. -/
def endPayload : Bytes := ArrayMeta.layout ⟨.final, []⟩

theorem decode_endPayload : ArrayMeta.decode endPayload = .ok ⟨.final, []⟩ := rfl

theorem endTransmission_eq : endTransmission = .ofPayloads [endPayload] := rfl

theorem sendEnd_yields : (sendEnd peer).Yields s () t ↔ Sends peer [endPayload] s t := by
  rw [sendEnd, endTransmission_eq, Transmission.deliver_yields]
  exact and_iff_right rfl

end Sending

section Receiving

variable {σ : Type} [Inbox σ] {peer : PeerId} {s t : σ} {ts : List Tensor}

theorem receiveVector_yields {shape : List Int64} {x : Tensor} :
    (receiveVector peer shape).Yields s x t ↔ shape = x.shape ∧
      (x.isIdVector = true ∧ x.Consistent) ∧ (Inbox.receiveFrom peer).Yields s x.data t := by
  simp only [receiveVector, bind_yields, lift_yields, Tensor.receivedIds_eq_ok_iff]
  constructor
  · rintro ⟨_, u, taken, ⟨vector, consistent, rfl, rfl⟩, rfl⟩
    exact ⟨rfl, ⟨vector, consistent⟩, taken⟩
  · rintro ⟨rfl, ⟨vector, consistent⟩, taken⟩
    exact ⟨_, t, taken, ⟨vector, consistent, rfl, rfl⟩, rfl⟩

/-- Announced vectors are received exactly when their buffers are the next of the peer. -/
theorem receiveVectors_yields {shapes : List (List Int64)} :
    (shapes.mapM (receiveVector peer)).Yields s ts t ↔ shapes = ts.map Tensor.shape ∧
      (∀ x ∈ ts, x.isIdVector = true ∧ x.Consistent) ∧ Fetches peer (ts.map Tensor.data) s t := by
  induction shapes generalizing s ts with
  | nil =>
    rw [List.mapM_nil, pure_yields, eq_comm (a := []), List.map_eq_nil_iff]
    constructor
    · rintro ⟨rfl, rfl⟩
      exact ⟨rfl, nofun, rfl⟩
    · rintro ⟨rfl, -, same⟩
      exact ⟨rfl, same⟩
  | cons shape shapes ih =>
    simp only [List.mapM_cons, bind_yields, pure_yields, receiveVector_yields]
    constructor
    · rintro ⟨x, u, ⟨rfl, own, first⟩, xs, v, rest, rfl, rfl⟩
      obtain ⟨rfl, others, later⟩ := ih.1 rest
      exact ⟨rfl, List.forall_mem_cons.2 ⟨own, others⟩, u, first, later⟩
    · rintro ⟨shape_eq, fit, fetched⟩
      cases ts with
      | nil => cases shape_eq
      | cons x xs =>
        obtain ⟨rfl, rfl⟩ := List.cons.inj shape_eq
        obtain ⟨own, others⟩ := List.forall_mem_cons.1 fit
        obtain ⟨u, first, later⟩ := fetched
        exact ⟨x, u, ⟨rfl, own, first⟩, xs, t, ih.2 ⟨rfl, others, later⟩, rfl, rfl⟩

/-- What a receiver asks of the vectors of a node flow. -/
structure Arriving (ts : List Tensor) : Prop where
  count : ts.length = arrayCount
  vectors : ∀ x ∈ ts, x.isIdVector = true ∧ x.Consistent
  announced : (ArrayMeta.ofTensors .nodeFlow ts).Representable

/-- A node flow is received exactly when seven vectors come that make it up. -/
theorem receive_yields_flow : receive.Yields s (peer, .flow g) t ↔
    ∃ ts, Arriving ts ∧ ofArrays ts = .ok g ∧
      Hears peer (ArrayMeta.ofTensors .nodeFlow ts).layout (ts.map Tensor.data) s t := by
  rw [receive]
  simp only [bind_yields, lift_yields, ArrayMeta.decode_eq_ok_iff]
  constructor
  · rintro ⟨⟨_, _⟩, _, heard, ⟨kind, shapes⟩, u, ⟨⟨fits, rfl⟩, rfl⟩, last⟩
    dsimp only at last
    split at last
    · simp only [unless_yields, bind_yields, lift_yields, pure_yields, receiveVectors_yields] at last
      obtain ⟨count, ts, v, ⟨rfl, vectors, fetched⟩, g, _, ⟨made, rfl⟩, same, rfl⟩ := last
      obtain ⟨rfl, ⟨⟩⟩ := Prod.mk.inj same
      have count : ts.length = arrayCount := by simpa using count
      exact ⟨ts, ⟨count, vectors, fits⟩, made, u, heard, fetched⟩
    · cases (pure_yields.1 last).1
    · exact absurd last not_throw_yields
  · rintro ⟨ts, ⟨count, vectors, fits⟩, made, u, heard, fetched⟩
    refine ⟨(peer, _), u, heard, _, u, ⟨⟨fits, rfl⟩, rfl⟩, ?_⟩
    have count : ¬(ArrayMeta.ofTensors .nodeFlow ts).shapes.length ≠ arrayCount := by
      simpa [ArrayMeta.ofTensors] using count
    have collected := receiveVectors_yields.2 ⟨rfl, vectors, fetched⟩
    refine unless_yields.2 ⟨count, bind_yields.2 ⟨ts, t, collected, bind_yields.2 ⟨g, t, ?_, ?_⟩⟩⟩
    · exact lift_yields.2 ⟨made, rfl⟩
    · exact pure_yields.2 ⟨rfl, rfl⟩

/-- Every announcement of the kind `final` is taken for the end of a stream, whatever arrays it
announces. -/
theorem receive_yields_ended_iff : receive.Yields s (peer, .ended) t ↔ ∃ m : ArrayMeta,
    m.kind = .final ∧ m.Representable ∧ Inbox.receive.Yields s (peer, m.layout) t := by
  rw [receive]
  simp only [bind_yields, lift_yields, ArrayMeta.decode_eq_ok_iff]
  constructor
  · rintro ⟨⟨_, _⟩, _, heard, ⟨kind, shapes⟩, u, ⟨⟨fits, rfl⟩, rfl⟩, last⟩
    dsimp only at last
    split at last
    · simp only [unless_yields, bind_yields, pure_yields] at last
      obtain ⟨-, ts, v, -, g, w, -, same, -⟩ := last
      cases same
    · obtain ⟨same, rfl⟩ := pure_yields.1 last
      obtain ⟨rfl, -⟩ := Prod.mk.inj same
      exact ⟨⟨.final, shapes⟩, rfl, fits, heard⟩
    · exact absurd last not_throw_yields
  · rintro ⟨⟨kind, shapes⟩, rfl, fits, heard⟩
    exact ⟨(peer, _), t, heard, _, t, ⟨⟨fits, rfl⟩, rfl⟩, pure_yields.2 ⟨rfl, rfl⟩⟩

/-- Vectors that were received and make up a node flow are those it travels as. -/
theorem vectors_of_ofArrays (arriving : Arriving ts) (made : ofArrays ts = .ok g) :
    g.Sendable ∧ g.vectors = ts := by
  have checked := arriving.vectors
  unfold ofArrays at made
  split at made
  · next nodeMapping edgeMapping layerOffsets flowOffsets offsets neighbors edgeIds =>
    simp only [bind_ok_iff] at made
    obtain ⟨starts, readOffsets, others, readNeighbors, ids, readIds, graph, built, done⟩ := made
    obtain rfl := Except.ok.inj done
    obtain ⟨a, adopted, rfl⟩ := FrozenGraph.ofArrays_eq_ok built
    obtain ⟨rfl, rfl, rfl⟩ := Adjacency.views_of_ofArrays adopted
    simp only [List.forall_mem_cons] at checked
    obtain ⟨node, edge, layer, flow, offsetsFit, neighborsFit, idsFit, -⟩ := checked
    rw [toIds_eq_ok_iff offsetsFit.1 offsetsFit.2, ofIds_eq_ok_iff] at readOffsets
    rw [toIds_eq_ok_iff neighborsFit.1 neighborsFit.2, ofIds_eq_ok_iff] at readNeighbors
    rw [toIds_eq_ok_iff idsFit.1 idsFit.2, ofIds_eq_ok_iff] at readIds
    obtain ⟨smallOffsets, rfl⟩ := readOffsets
    obtain ⟨smallNeighbors, rfl⟩ := readNeighbors
    obtain ⟨smallIds, rfl⟩ := readIds
    refine ⟨⟨?_, smallOffsets, smallNeighbors, smallIds⟩, rfl⟩
    simp only [NodeFlow.mappings, List.forall_mem_cons]
    exact ⟨node.1, edge.1, layer.1, flow.1, nofun⟩
  · cases made

end Receiving

section Arriving

/-- The node flow as which another arrives: its graph is held by its in-edges. -/
def arrived (f : NodeFlow) : NodeFlow := { f with graph := .ofAdjacency f.rows .incoming none }

variable (reachable : f.graph.Reachable)
include reachable

theorem rows_wellFormed : f.rows.WellFormed := (reachable.view .incoming).1

/-- Offsets and neighbors of rows whose arrays are in memory are 64-bit integers, whatever the ids
are. -/
theorem sendable_of_lengths (vectors : ∀ t ∈ f.mappings, t.isIdVector = true)
    (edgeIds : ∀ e ∈ f.rows.edgeIds, e < idLimit)
    (short : ∀ payload ∈ f.payloads, payload.length < addressable) : f.Sendable := by
  have compressed := (rows_wellFormed reachable).compressed
  have size : addressable = 0x10000000000000000 := rfl
  have limit : idLimit = 0x8000000000000000 := rfl
  have bound : ∀ ids ∈ [f.rows.offsets, f.rows.neighbors, f.rows.edgeIds],
      8 * ids.length < addressable := by
    intro ids member
    have own : (ofInt64s (ids.map .ofNat)).data ∈ f.payloads := by
      refine List.mem_cons_of_mem _ (List.mem_map_of_mem ?_)
      exact List.mem_append_right _ (List.mem_map_of_mem member)
    have length : (ofInt64s (ids.map .ofNat)).data.length = 8 * ids.length := by
      rw [ofInt64s, Wire.length_flatMap_int64, List.length_map]
    exact length ▸ short _ own
  simp only [List.forall_mem_cons] at bound
  obtain ⟨rows, arcs, -⟩ := bound
  refine ⟨vectors, fun i member => ?_, fun v member => ?_, edgeIds⟩
  · have := compressed.offset_le i member
    omega
  · have := compressed.neighbor_lt v member
    omega

theorem ofArrays_vectors (sendable : f.Sendable) : ofArrays f.vectors = .ok f.arrived := by
  have graph : FrozenGraph.ofArrays f.rows.offsets f.rows.neighbors f.rows.edgeIds .incoming none =
      .ok (.ofAdjacency f.rows .incoming none) := by
    rw [FrozenGraph.ofArrays, (rows_wellFormed reachable).ofArrays_views]
  simp only [vectors, mappings, List.map_cons, List.map_nil, List.cons_append, List.nil_append,
    ofArrays, toIds_ofInt64s sendable.offsets, toIds_ofInt64s sendable.neighbors,
    toIds_ofInt64s sendable.edgeIds, bind_ok_iff]
  exact ⟨_, rfl, _, rfl, _, rfl, _, graph, rfl⟩

end Arriving

theorem arriving_vectors (sendable : f.Sendable) (consistent : ∀ t ∈ f.mappings, t.Consistent)
    (short : ∀ payload ∈ f.payloads, payload.length < addressable) : Arriving f.vectors := by
  have data : ∀ t ∈ f.vectors, t.data.length < addressable := fun t member =>
    short _ (List.mem_cons_of_mem _ (List.mem_map_of_mem member))
  refine ⟨rfl, fun t member => ?_, ?_⟩
  · rcases List.mem_append.1 member with own | ids
    · exact ⟨sendable.mappings t own, consistent t own⟩
    · obtain ⟨_, -, rfl⟩ := List.mem_map.1 ids
      exact ⟨isIdVector_ofInt64s _, consistent_ofInt64s (data _ member)⟩
  · exact ArrayMeta.representable_of_length f.few_vectors (short _ List.mem_cons_self)

end GraphRelay.NodeFlow
