import GraphRelay.Proofs.Message.KeyValueFormat
import GraphRelay.Proofs.Tensor.Buffers
import GraphRelay.Proofs.Transfer.InOrder
import GraphRelay.Transfer.KeyValue

/-!
# Key/value messages in transfer

A message travels as the payloads that its kind asks for, and receiving takes exactly such payloads:
nothing else is accepted, and nothing that was sent whole is refused.
-/
namespace GraphRelay.KeyValue

open LinkAction

/-- The tensors of a message, ids first. -/
def tensors (m : KeyValue) : List Tensor := m.ids.toList ++ m.values.toList

/-- What announces the tensors of a message. -/
def announcement (m : KeyValue) : ArrayMeta := .ofTensors m.kind m.tensors

/-- The payloads behind the header. -/
def tail (m : KeyValue) : List Bytes :=
  if m.kind.carriesIds then m.announcement.layout :: m.tensors.map Tensor.data else []

/-- The payloads as which a message travels. -/
def payloads (m : KeyValue) : List Bytes := m.header :: m.tail

/-- What has to hold of a message for it to be sent whole. -/
structure Sendable (m : KeyValue) : Prop where
  complete : m.Complete
  ids : ∀ ids ∈ m.ids, ids.isIdVector = true
  values : ∀ values ∈ m.values, isValueArray values = true

/-- Every buffer is as long as its shape asks. -/
def Consistent (m : KeyValue) : Prop := ∀ t ∈ m.tensors, t.Consistent

/-- The counts that go on the wire fit their words. -/
structure Representable (m : KeyValue) : Prop where
  name_lt : (Wire.text (m.name.getD "")).length < UInt64.size
  announcement : m.announcement.Representable

/-- What can go from one peer to another. -/
structure Transferable (m : KeyValue) : Prop where
  sendable : m.Sendable
  consistent : m.Consistent
  representable : m.Representable

/-- What the header tells of a message. -/
def head (m : KeyValue) : KeyValue := { m with ids := none, values := none }

variable {m h : KeyValue}

theorem Complete.isHeader (complete : m.Complete)
    (name_lt : (Wire.text (m.name.getD "")).length < UInt64.size) : m.head.IsHeader :=
  ⟨complete.keyValue, complete.name, name_lt, rfl, rfl⟩

theorem carriesIds_of_carriesValues {kind : MessageKind} (carried : kind.carriesValues = true) :
    kind.carriesIds = true := by
  cases kind <;> first | rfl | cases carried

theorem arrayCount_pos (kind : MessageKind) : 0 < kind.arrayCount := by
  cases kind <;> decide

section Uncarried

variable (uncarried : ¬m.kind.carriesIds = true)
include uncarried

theorem values_uncarried : m.kind.carriesValues = false :=
  Bool.eq_false_iff.2 fun carried => uncarried (carriesIds_of_carriesValues carried)

theorem Complete.no_tensors (complete : m.Complete) : m.ids = none ∧ m.values = none := by
  constructor
  · simpa [uncarried] using complete.ids
  · simpa [values_uncarried uncarried] using complete.values

/-- Without ids a message is all header. -/
theorem Complete.head_eq (complete : m.Complete) : m.head = m := by
  obtain ⟨ids, values⟩ := complete.no_tensors uncarried
  cases m
  rw [head, KeyValue.mk.injEq]
  exact ⟨rfl, rfl, rfl, ids.symm, values.symm⟩

theorem Complete.sendable (complete : m.Complete) : m.Sendable := by
  obtain ⟨ids, values⟩ := complete.no_tensors uncarried
  exact ⟨complete, by simp [ids], by simp [values]⟩

theorem IsHeader.complete (header : m.IsHeader) : m.Complete := by
  refine ⟨header.keyValue, header.name, ?_, ?_⟩
  · simpa [header.ids] using uncarried
  · rw [header.values, values_uncarried uncarried, Option.isSome_none]

end Uncarried

theorem IsHeader.tensors_eq (header : m.IsHeader) : m.tensors = [] := by
  rw [tensors, header.ids, header.values]
  rfl

theorem isValueArray_iff {t : Tensor} :
    isValueArray t = true ↔ t.type = .float32 ∧ t.shape ≠ [] := by
  rw [isValueArray, Bool.and_eq_true, decide_eq_true_iff, decide_eq_true_iff, Tensor.rank, ne_eq,
    List.length_eq_zero_iff]

/-- A header with the tensors that were announced. -/
def completed (h : KeyValue) (ids : Tensor) (values : Option Tensor) : KeyValue :=
  { h with ids := some ids, values := values }

section Completed

variable {ids : Tensor} {values : Option Tensor}

theorem head_completed (header : h.IsHeader) : (h.completed ids values).head = h := by
  obtain ⟨kind, rank, name, _, _⟩ := h
  rw [completed, head, KeyValue.mk.injEq]
  exact ⟨rfl, rfl, rfl, header.ids.symm, header.values.symm⟩

theorem sendable_completed (header : h.IsHeader) (carried : h.kind.carriesIds = true) :
    (h.completed ids values).Sendable ↔ values.isSome = h.kind.carriesValues ∧
      ids.isIdVector = true ∧ ∀ v ∈ values, isValueArray v = true := by
  constructor
  · intro sendable
    exact ⟨sendable.complete.values, sendable.ids ids rfl, sendable.values⟩
  · rintro ⟨complete, vector, array⟩
    exact ⟨⟨header.keyValue, header.name, carried.symm, complete⟩,
      by simpa [completed] using vector, array⟩

theorem tail_completed (carried : h.kind.carriesIds = true) : (h.completed ids values).tail =
    (h.completed ids values).announcement.layout :: ids.data :: values.toList.map Tensor.data :=
  if_pos carried

theorem consistent_completed :
    (h.completed ids values).Consistent ↔ ids.Consistent ∧ ∀ v ∈ values, v.Consistent := by
  cases values <;> simp [Consistent, tensors, completed]

/-- A message is its header with its tensors. -/
theorem eq_completed (carried : h.kind.carriesIds = true) (sendable : m.Sendable)
    (same : m.head = h) : ∃ ids values, m = h.completed ids values := by
  subst same
  obtain ⟨ids, present⟩ := Option.isSome_iff_exists.1 (sendable.complete.ids.trans carried)
  refine ⟨ids, m.values, ?_⟩
  obtain ⟨kind, rank, name, _, values⟩ := m
  rw [completed, head, KeyValue.mk.injEq]
  exact ⟨rfl, rfl, rfl, present, rfl⟩

end Completed

section Receiving

variable {σ : Type} [Inbox σ] {peer : PeerId} {s t : σ}

theorem receiveShapes_yields {kind : MessageKind} {shapes : List (List Int64)} :
    (receiveShapes peer kind).Yields s shapes t ↔
      ArrayMeta.Representable ⟨kind, shapes⟩ ∧ shapes.length = kind.arrayCount ∧
        (Inbox.receiveFrom peer).Yields s (ArrayMeta.layout ⟨kind, shapes⟩) t := by
  rw [receiveShapes]
  simp only [bind_yields, lift_yields, unless_yields, pure_yields, ArrayMeta.decode_eq_ok_iff]
  constructor
  · rintro ⟨_, u, taken, ⟨kind', shapes'⟩, _, ⟨⟨fits, rfl⟩, rfl⟩, sameKind, count, rfl, rfl⟩
    obtain rfl : kind' = kind := Decidable.not_not.1 sameKind
    exact ⟨fits, Decidable.not_not.1 count, taken⟩
  · rintro ⟨fits, count, taken⟩
    exact ⟨_, t, taken, _, t, ⟨⟨fits, rfl⟩, rfl⟩, not_not_intro rfl, not_not_intro count, rfl, rfl⟩

theorem receiveValues_yields {shape : List Int64} {values : Tensor} :
    (receiveValues peer shape).Yields s values t ↔
      isValueArray values = true ∧ values.Consistent ∧ shape = values.shape ∧
        (Inbox.receiveFrom peer).Yields s values.data t := by
  rw [receiveValues, isValueArray_iff]
  simp only [bind_yields, lift_yields, unless_yields, Tensor.received_eq_ok_iff]
  constructor
  · rintro ⟨dimensions, payload, u, taken, ⟨consistent, rfl⟩, rfl⟩
    exact ⟨⟨rfl, by simpa using dimensions⟩, consistent, rfl, taken⟩
  · rintro ⟨⟨float32, dimensions⟩, consistent, rfl, taken⟩
    refine ⟨by simpa using dimensions, _, t, taken, ⟨consistent, ?_⟩, rfl⟩
    rw [← float32]

/-- A second shape calls for values. -/
theorem receiveLast_yields (header : h.IsHeader) {ids : Tensor} {first : List Int64}
    {more : List (List Int64)} (count : (first :: more).length = h.kind.arrayCount) :
    (match (first :: more)[1]? with
      | none => pure { h with ids := some ids }
      | some shape => do
        let values ← receiveValues peer shape
        pure { h with ids := some ids, values := some values } :
      LinkAction σ KeyValue).Yields s m t ↔
    ∃ values : Option Tensor, m = h.completed ids values ∧ values.isSome = h.kind.carriesValues ∧
      (∀ v ∈ values, isValueArray v = true ∧ v.Consistent) ∧
      more = values.toList.map Tensor.shape ∧ Fetches peer (values.toList.map Tensor.data) s t := by
  rw [MessageKind.arrayCount] at count
  split at count
  · next valued =>
    obtain ⟨shape, rfl⟩ : ∃ shape, more = [shape] := List.length_eq_one_iff.1 (by simpa using count)
    simp only [List.getElem?_cons_succ, List.getElem?_cons_zero, bind_yields, pure_yields,
      receiveValues_yields]
    constructor
    · rintro ⟨values, _, ⟨array, consistent, rfl, taken⟩, rfl, rfl⟩
      exact ⟨some values, rfl, valued.symm, by simpa using ⟨array, consistent⟩, rfl, t, taken, rfl⟩
    · rintro ⟨values, rfl, carried, fit, shapes, fetched⟩
      obtain ⟨values, rfl⟩ := Option.isSome_iff_exists.1 (carried.trans valued)
      obtain ⟨array, consistent⟩ := fit values rfl
      obtain ⟨u, taken, rfl⟩ := fetched
      exact ⟨values, t, ⟨array, consistent, by simpa using shapes, taken⟩, rfl, rfl⟩
  · next unvalued =>
    obtain rfl : more = [] := by simpa using count
    refine pure_yields.trans ?_
    constructor
    · rintro ⟨rfl, rfl⟩
      refine ⟨none, ?_, by simpa using unvalued, nofun, rfl, rfl⟩
      rw [completed, ← header.values]
    · rintro ⟨values, rfl, carried, -, shapes, fetched⟩
      obtain rfl : values = none := by simpa [unvalued] using carried
      rw [completed, ← header.values]
      exact ⟨rfl, fetched⟩

/-- Tensors complete a header exactly when they belong to it and come announced. -/
theorem receiveTensors_yields (header : h.IsHeader) (carried : h.kind.carriesIds = true) :
    (receiveTensors peer h).Yields s m t ↔ m.head = h ∧ m.Sendable ∧ m.Consistent ∧
      m.announcement.Representable ∧ Fetches peer m.tail s t := by
  rw [receiveTensors]
  simp only [bind_yields, lift_yields, receiveShapes_yields, Tensor.receivedIds_eq_ok_iff]
  constructor
  · rintro ⟨shapes, u, ⟨fits, count, announced⟩, _, _, tookIds, ids, v,
      ⟨⟨vector, consistent, shape, rfl⟩, rfl⟩, last⟩
    obtain ⟨_, more, rfl⟩ : ∃ first more, shapes = first :: more :=
      List.exists_cons_of_length_pos (count ▸ arrayCount_pos h.kind)
    obtain rfl : _ = ids.shape := shape
    obtain ⟨values, rfl, valued, fit, rfl, fetched⟩ := (receiveLast_yields header count).1 last
    refine ⟨head_completed header, (sendable_completed header carried).2
      ⟨valued, vector, fun v own => (fit v own).1⟩, ?_, fits, ?_⟩
    · exact consistent_completed.2 ⟨consistent, fun v own => (fit v own).2⟩
    · rw [tail_completed carried]
      exact ⟨u, announced, v, tookIds, fetched⟩
  · rintro ⟨same, sendable, consistent, fits, fetched⟩
    obtain ⟨ids, values, rfl⟩ := eq_completed carried sendable same
    rw [tail_completed carried] at fetched
    obtain ⟨u, announced, v, tookIds, fetched⟩ := fetched
    obtain ⟨valued, vector, array⟩ := (sendable_completed header carried).1 sendable
    obtain ⟨own, others⟩ := consistent_completed.1 consistent
    have count : (ids.shape :: values.toList.map Tensor.shape).length = h.kind.arrayCount := by
      rw [MessageKind.arrayCount, ← valued]
      cases values <;> rfl
    exact ⟨_, u, ⟨fits, count, announced⟩, _, v, tookIds, ids, v, ⟨⟨vector, own, rfl, rfl⟩, rfl⟩,
      (receiveLast_yields header count).2
        ⟨values, rfl, valued, fun v own => ⟨array v own, others v own⟩, rfl, fetched⟩⟩

/-- A message is received exactly when the payloads of a message that can be sent come. -/
theorem receive_yields :
    receive.Yields s (peer, m) t ↔ m.Transferable ∧ Hears peer m.header m.tail s t := by
  rw [receive]
  simp only [bind_yields, lift_yields, decodeHeader_eq_ok_iff]
  constructor
  · rintro ⟨⟨_, _⟩, u, heard, h, _, ⟨⟨header, rfl⟩, rfl⟩, last⟩
    split at last
    · next carried =>
      simp only [bind_yields, pure_yields, receiveTensors_yields header carried] at last
      obtain ⟨m, _, ⟨rfl, sendable, consistent, fits, fetched⟩, ⟨rfl, rfl⟩, rfl⟩ := last
      exact ⟨⟨sendable, consistent, header.name_lt, fits⟩, _, heard, fetched⟩
    · next uncarried =>
      obtain ⟨same, rfl⟩ := pure_yields.1 last
      obtain ⟨rfl, rfl⟩ := Prod.mk.inj same
      have fits : m.announcement.Representable := by
        rw [announcement, header.tensors_eq]
        exact ArrayMeta.representable_nil _
      have consistent : m.Consistent := by simp [Consistent, header.tensors_eq]
      have sendable := (header.complete uncarried).sendable uncarried
      refine ⟨⟨sendable, consistent, header.name_lt, fits⟩, t, heard, ?_⟩
      rw [tail, if_neg uncarried]
      exact rfl
  · rintro ⟨⟨sendable, consistent, name_lt, fits⟩, u, heard, fetched⟩
    refine ⟨(peer, m.header), u, heard, m.head, u,
      ⟨⟨sendable.complete.isHeader name_lt, rfl⟩, rfl⟩, ?_⟩
    split
    · next carried =>
      simp only [bind_yields, pure_yields,
        receiveTensors_yields (sendable.complete.isHeader name_lt) carried]
      exact ⟨m, t, ⟨rfl, sendable, consistent, fits, fetched⟩, rfl, rfl⟩
    · next uncarried =>
      have uncarried : ¬m.kind.carriesIds = true := uncarried
      rw [tail, if_neg uncarried] at fetched
      obtain rfl : t = u := fetched
      rw [sendable.complete.head_eq uncarried]
      exact pure_yields.2 ⟨rfl, rfl⟩

end Receiving

section Sending

/-- Ids that are sent come from a vector of ids, values from an array of values. -/
theorem arrays_eq_ok_iff {ts : List Tensor} (present : m.ids.isSome = true) :
    m.arrays = .ok ts ↔ (∀ ids ∈ m.ids, ids.isIdVector = true) ∧
      (∀ values ∈ m.values, isValueArray values = true) ∧ ts = m.tensors := by
  obtain ⟨kind, rank, name, ids, values⟩ := m
  obtain ⟨ids, rfl⟩ := Option.isSome_iff_exists.1 present
  rw [arrays]
  dsimp only
  cases vector : ids.isIdVector with
  | false => exact iff_of_false nofun fun h => by simp [vector] at h
  | true =>
    cases values with
    | none => simp [tensors, vector, eq_comm (a := ts)]
    | some values =>
      cases array : isValueArray values with
      | false => exact iff_of_false (by simp [array]) fun h => by simp [array] at h
      | true => simp [tensors, vector, array, eq_comm (a := ts)]

theorem few_arrays (m : KeyValue) : m.announcement.shapes.length < 0x80000000 := by
  rw [announcement, ArrayMeta.ofTensors, List.length_map, tensors]
  cases m.ids <;> cases m.values <;> simp

theorem kind_of_arrays_eq_error {f : Fault} (h : m.arrays = .error f) : f.kind = .precondition := by
  rw [arrays] at h
  repeat' split at h
  all_goals cases h
  all_goals rfl

theorem kind_of_validate_eq_error {f : Fault} (h : m.validate = .error f) :
    f.kind = .precondition := by
  rw [validate] at h
  repeat' split at h
  all_goals cases h
  all_goals rfl

theorem transmission_of_arrays (complete : m.Complete) (carried : m.kind.carriesIds = true) :
    m.transmission = match m.arrays with
      | .error f => ⟨[m.header], some f⟩
      | .ok _ => .ofPayloads m.payloads := by
  have header : m.encodeHeader = .ok m.header := encodeHeader_eq_ok_iff.2 ⟨complete, rfl⟩
  have encoded : (ArrayMeta.ofTensors m.kind m.tensors).encode = .ok m.announcement.layout :=
    ArrayMeta.encode_eq_ok_iff.2 ⟨m.few_arrays, rfl⟩
  have whole : m.payloads = m.header :: m.announcement.layout :: m.tensors.map Tensor.data := by
    rw [payloads, tail, if_pos carried]
  cases fit : m.arrays with
  | error f => simp [transmission, header, carried, fit, bind, Except.bind]
  | ok ts =>
    obtain ⟨-, -, rfl⟩ := (arrays_eq_ok_iff (complete.ids.trans carried)).1 fit
    simp [transmission, header, carried, fit, encoded, whole, bind, Except.bind, pure, Except.pure]

/-- What is sent of a message: nothing, only its header, or all of it. -/
theorem transmission_cases (m : KeyValue) :
    (¬m.Complete ∧ ∃ f, m.transmission = .refused f ∧ f.kind = .precondition) ∨
    (m.Complete ∧ ¬m.Sendable ∧
      ∃ f, m.transmission = ⟨[m.header], some f⟩ ∧ f.kind = .precondition) ∨
    (m.Sendable ∧ m.transmission = .ofPayloads m.payloads) := by
  cases valid : m.validate with
  | error f =>
    have incomplete : ¬m.Complete := fun h => by simp [validate_eq_ok_iff.2 h] at valid
    refine .inl ⟨incomplete, f, ?_, kind_of_validate_eq_error valid⟩
    simp [transmission, encodeHeader, valid, Except.map]
  | ok _ =>
    have complete := validate_eq_ok_iff.1 valid
    by_cases carried : m.kind.carriesIds = true
    · rw [transmission_of_arrays complete carried]
      have present := complete.ids.trans carried
      cases fit : m.arrays with
      | error f =>
        have misfit : ¬m.Sendable := fun h => by
          simp [(arrays_eq_ok_iff present).2 ⟨h.ids, h.values, rfl⟩] at fit
        exact .inr (.inl ⟨complete, misfit, f, rfl, kind_of_arrays_eq_error fit⟩)
      | ok ts =>
        obtain ⟨ids, values, -⟩ := (arrays_eq_ok_iff present).1 fit
        exact .inr (.inr ⟨⟨complete, ids, values⟩, rfl⟩)
    · refine .inr (.inr ⟨complete.sendable carried, ?_⟩)
      simp [transmission, encodeHeader, valid, Except.map, carried, payloads, tail]

theorem transmission_of_sendable (h : m.Sendable) : m.transmission = .ofPayloads m.payloads := by
  rcases m.transmission_cases with ⟨incomplete, -⟩ | ⟨-, misfit, -⟩ | ⟨-, whole⟩
  · exact absurd h.complete incomplete
  · exact absurd h misfit
  · exact whole

theorem sendable_of_transmission (h : m.transmission.refusal = none) : m.Sendable := by
  rcases m.transmission_cases with ⟨-, f, stopped, -⟩ | ⟨-, -, f, stopped, -⟩ | ⟨whole, -⟩
  · rw [stopped] at h
    cases h
  · rw [stopped] at h
    cases h
  · exact whole

variable {σ : Type} [Outbox σ] {peer : PeerId} {s t : σ}

theorem send_yields : (send peer m).Yields s () t ↔ m.Sendable ∧ Sends peer m.payloads s t := by
  rw [send, Transmission.deliver_yields]
  constructor
  · rintro ⟨whole, sent⟩
    have sendable := sendable_of_transmission whole
    rw [transmission_of_sendable sendable] at sent
    exact ⟨sendable, sent⟩
  · rintro ⟨sendable, sent⟩
    rw [transmission_of_sendable sendable]
    exact ⟨rfl, sent⟩

theorem representable_of_lengths (h : m.Sendable)
    (short : ∀ payload ∈ m.payloads, payload.length < addressable) : m.Representable := by
  constructor
  · cases named : m.kind.carriesName with
    | true =>
      have header := short m.header List.mem_cons_self
      rw [KeyValue.header, named, if_pos rfl] at header
      simp only [List.length_append] at header
      exact Nat.lt_of_le_of_lt (by omega) header
    | false =>
      have unnamed : m.name = none := by simpa [named] using h.complete.name
      rw [unnamed]
      decide
  · by_cases carried : m.kind.carriesIds = true
    · refine ArrayMeta.representable_of_length m.few_arrays (short _ ?_)
      rw [payloads, tail, if_pos carried]
      simp
    · obtain ⟨ids, values⟩ := h.complete.no_tensors carried
      rw [announcement, tensors, ids, values]
      exact ArrayMeta.representable_nil _

end Sending
end GraphRelay.KeyValue
