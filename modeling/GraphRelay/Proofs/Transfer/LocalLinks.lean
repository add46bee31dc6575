import GraphRelay.Proofs.PeerTable
import GraphRelay.Proofs.Queue.Operations
import GraphRelay.Proofs.Transfer.InOrder
import GraphRelay.Transfer.LocalLinks
import Mathlib.Algebra.GroupWithZero.Nat

/-!
# Links within one process keep the order

What a queue accepts goes behind what it holds, what is taken stood in front, and the queues of other
peers are not touched, not even by an action that is refused.
-/
namespace GraphRelay

namespace LocalLinks

variable {l l' : LocalLinks} {peer r : PeerId} {q : Queue} {payload : Bytes} {f : Fault}

theorem queue_setQueue : (l.setQueue peer q).queue r = if r = peer then q else l.queue r := by
  rw [queue, setQueue, PeerTable.find?_insert]
  split <;> rfl

@[simp] theorem queue_setQueue_self : (l.setQueue peer q).queue peer = q := by
  rw [queue_setQueue, if_pos rfl]

theorem queue_setQueue_of_ne (other : r ≠ peer) : (l.setQueue peer q).queue r = l.queue r := by
  rw [queue_setQueue, if_neg other]

theorem outcome_send : (send peer payload).outcome l =
    match (l.queue peer).push (.ofBytes payload) with
    | .accepted q => (.ok (), l.setQueue peer q)
    | .refused f => (.error f, l.setQueue peer (l.queue peer))
    | .waits => (.error .linkFull, l.setQueue peer (l.queue peer)) := by
  rw [send, LinkAction.outcome_bind]
  change LinkAction.outcome (match (l.queue peer).push (.ofBytes payload) with
    | .accepted q => _ | .refused f => _ | .waits => _) l = _
  cases (l.queue peer).push (.ofBytes payload) <;> rfl

theorem outcome_receiveFrom : (receiveFrom peer).outcome l =
    match (l.queue peer).takeFirst with
    | some (m, q) => (.ok m.payload, l.setQueue peer q)
    | none => (.error (.noMessageFrom peer.toInt), l) := by
  rw [receiveFrom, LinkAction.outcome_bind]
  change LinkAction.outcome (match (l.queue peer).takeFirst with
    | some (m, q) => _ | none => _) l = _
  cases (l.queue peer).takeFirst <;> rfl

theorem outcome_receive : receive.outcome l =
    match l.firstWaiting with
    | some p => (receiveFrom p >>= fun payload => pure (p, payload)).outcome l
    | none => (.error .noMessage, l) := by
  rw [receive, LinkAction.outcome_bind]
  change LinkAction.outcome (match l.firstWaiting with | some p => _ | none => _) l = _
  cases l.firstWaiting <;> rfl

theorem send_yields : (Outbox.send peer payload).Yields l () l' ↔
    ∃ q, (l.queue peer).push (.ofBytes payload) = .accepted q ∧ l' = l.setQueue peer q := by
  change (send peer payload).outcome l = _ ↔ _
  rw [outcome_send]
  cases (l.queue peer).push (.ofBytes payload) <;> simp [eq_comm]

/-- A refused payload leaves every queue as it was: it can never fit, or finds the queue closed or
full. -/
theorem send_refuses (h : (Outbox.send peer payload).Refuses l f l') :
    l' = l.setQueue peer (l.queue peer) ∧
      ((l.queue peer).capacity < payload.length ∨ f = .queueClosed ∨ f = .linkFull) := by
  have refused : (send peer payload).outcome l = (.error f, l') := h
  rw [outcome_send, Queue.push] at refused
  split at refused
  · next accepted => cases refused
  · next e because =>
    obtain ⟨rfl, rfl⟩ : e = f ∧ l.setQueue peer (l.queue peer) = l' := by simpa using refused
    refine ⟨rfl, ?_⟩
    split at because
    · next oversized => exact .inl oversized
    split at because
    · cases because
      exact .inr (.inl rfl)
    split at because <;> cases because
  · obtain ⟨rfl, rfl⟩ : Fault.linkFull = f ∧ l.setQueue peer (l.queue peer) = l' := by
      simpa using refused
    exact ⟨rfl, .inr (.inr rfl)⟩

theorem receiveFrom_yields : (Inbox.receiveFrom peer).Yields l payload l' ↔ ∃ m q,
    (l.queue peer).takeFirst = some (m, q) ∧ payload = m.payload ∧ l' = l.setQueue peer q := by
  change (receiveFrom peer).outcome l = _ ↔ _
  rw [outcome_receiveFrom]
  cases (l.queue peer).takeFirst with
  | none => exact iff_of_false nofun nofun
  | some taken =>
    obtain ⟨m, q⟩ := taken
    simp only [Prod.mk.injEq, Except.ok.injEq, Option.some.injEq, eq_comm (a := payload),
      eq_comm (a := l')]
    constructor
    · rintro ⟨own, left⟩
      exact ⟨m, q, ⟨rfl, rfl⟩, own, left⟩
    · rintro ⟨_, _, ⟨rfl, rfl⟩, own, left⟩
      exact ⟨own, left⟩

theorem receive_yields : Inbox.receive.Yields l (peer, payload) l' ↔
    l.firstWaiting = some peer ∧ (Inbox.receiveFrom peer).Yields l payload l' := by
  change receive.outcome l = _ ↔ _
  rw [outcome_receive]
  cases l.firstWaiting with
  | none => exact iff_of_false nofun fun h => nomatch h.1
  | some p =>
    rw [Option.some.injEq]
    refine LinkAction.bind_yields.trans ?_
    simp only [LinkAction.pure_yields, Prod.mk.injEq]
    constructor
    · rintro ⟨_, _, taken, ⟨rfl, rfl⟩, rfl⟩
      exact ⟨rfl, taken⟩
    · rintro ⟨rfl, taken⟩
      exact ⟨payload, l', taken, ⟨rfl, rfl⟩, rfl⟩

/-- What waits in the queue of each peer. -/
def waiting (l : LocalLinks) : Waiting := fun peer => (l.queue peer).payloads

theorem send_enqueued (h : (Outbox.send peer payload).Yields l () l') :
    Enqueued peer [payload] l.waiting l'.waiting := by
  obtain ⟨q, pushed, rfl⟩ := send_yields.1 h
  obtain ⟨-, -, rfl⟩ := Queue.push_eq_accepted_iff.1 pushed
  refine ⟨?_, fun r other => ?_⟩
  · simp [waiting, Queue.payloads, Message.ofBytes]
  · rw [waiting, waiting, queue_setQueue_of_ne other]

theorem receiveFrom_dequeued (h : (Inbox.receiveFrom peer).Yields l payload l') :
    Dequeued peer [payload] l.waiting l'.waiting := by
  obtain ⟨m, q, taken, rfl, rfl⟩ := receiveFrom_yields.1 h
  refine ⟨?_, fun r other => ?_⟩
  · simp [waiting, Queue.payloads, (Queue.takeFirst_eq_some_iff.1 taken).1]
  · rw [waiting, waiting, queue_setQueue_of_ne other]

/-- Every peer has one queue, and the lengths of payloads that fit are machine words. -/
structure Sound (l : LocalLinks) : Prop where
  ascending : l.queues.Ascending
  capacity_lt : l.capacity < addressable
  queue_lt : ∀ entry ∈ l.queues, entry.2.capacity < addressable

theorem sound_empty {capacity : Nat} (h : capacity < addressable) : (empty capacity).Sound :=
  ⟨.nil, h, nofun⟩

theorem Sound.capacity_queue_lt (sound : l.Sound) (peer : PeerId) :
    (l.queue peer).capacity < addressable := by
  rw [queue]
  cases found : l.queues.find? peer with
  | none => exact sound.capacity_lt
  | some q => exact sound.queue_lt _ (PeerTable.mem_of_find? found)

theorem Sound.setQueue (sound : l.Sound) (fits : q.capacity < addressable) :
    (l.setQueue peer q).Sound := by
  refine ⟨sound.ascending.insert, sound.capacity_lt, fun entry member => ?_⟩
  rcases PeerTable.mem_insert member with rfl | member
  · exact fits
  · exact sound.queue_lt entry member

theorem Sound.send (sound : l.Sound) (h : (Outbox.send peer payload).Yields l () l') :
    l'.Sound ∧ payload.length < addressable := by
  obtain ⟨q, pushed, rfl⟩ := send_yields.1 h
  obtain ⟨-, room, rfl⟩ := Queue.push_eq_accepted_iff.1 pushed
  have fits := sound.capacity_queue_lt peer
  have short : payload.length ≤ (l.queue peer).capacity := Nat.le_of_add_left_le room
  exact ⟨sound.setQueue fits, by omega⟩

theorem Sound.receiveFrom (sound : l.Sound) (h : (Inbox.receiveFrom peer).Yields l payload l') :
    l'.Sound := by
  obtain ⟨m, q, taken, -, rfl⟩ := receiveFrom_yields.1 h
  rw [(Queue.takeFirst_eq_some_iff.1 taken).2]
  exact sound.setQueue (sound.capacity_queue_lt peer)

theorem exists_receiveFrom (busy : l.waiting peer ≠ []) :
    ∃ payload l', (Inbox.receiveFrom peer).Yields l payload l' := by
  rw [waiting, Queue.payloads, ne_eq, List.map_eq_nil_iff] at busy
  obtain ⟨m, rest, items⟩ := List.exists_cons_of_ne_nil busy
  have taken : (l.queue peer).takeFirst = some (m, { l.queue peer with
      items := rest, used := (l.queue peer).used - m.length }) :=
    Queue.takeFirst_eq_some_iff.2 ⟨items, rfl⟩
  exact ⟨_, _, receiveFrom_yields.2 ⟨m, _, taken, rfl, rfl⟩⟩

theorem Sound.exists_receive (sound : l.Sound) (busy : l.waiting peer ≠ []) :
    ∃ message l', Inbox.receive.Yields l message l' := by
  have held : (l.queue peer).items ≠ [] := by
    simpa [waiting, Queue.payloads] using busy
  obtain ⟨p, found⟩ : ∃ p, l.firstWaiting = some p := by
    rw [← Option.isSome_iff_exists, firstWaiting, Option.isSome_map, List.find?_isSome]
    cases own : l.queues.find? peer with
    | none => simp [queue, own, Queue.empty] at held
    | some q =>
      rw [queue, own, Option.getD_some] at held
      exact ⟨_, PeerTable.mem_of_find? own, by simpa using held⟩
  obtain ⟨⟨front, q⟩, first, rfl⟩ := Option.map_eq_some_iff.1 found
  have own := sound.ascending.find?_of_mem (List.mem_of_find?_eq_some first)
  have waits : l.waiting front ≠ [] := by
    have items := List.find?_some first
    simpa [waiting, queue, own, Queue.payloads] using items
  obtain ⟨payload, l', taken⟩ := exists_receiveFrom waits
  exact ⟨_, l', receive_yields.2 ⟨found, taken⟩⟩

instance : FifoLinks LocalLinks where
  waiting := waiting
  Sound := Sound
  receive_dequeued h := receiveFrom_dequeued (receive_yields.1 h).2
  receiveFrom_dequeued h := receiveFrom_dequeued h
  receive_sound sound h := sound.receiveFrom (receive_yields.1 h).2
  receiveFrom_sound sound h := sound.receiveFrom h
  exists_receive sound busy := sound.exists_receive busy
  exists_receiveFrom _ busy := exists_receiveFrom busy
  send_enqueued h := send_enqueued h
  send_sound sound h := sound.send h

/-- The queue of `peer` is open and has room for so many bytes more. -/
structure HasRoom (l : LocalLinks) (peer : PeerId) (bytes : Nat) : Prop where
  opened : (l.queue peer).closed = false
  room : (l.queue peer).used + bytes ≤ (l.queue peer).capacity

theorem HasRoom.exists_sends {payloads : List Bytes}
    (h : l.HasRoom peer (payloads.map List.length).sum) : ∃ l', Sends peer payloads l l' := by
  induction payloads generalizing l with
  | nil => exact ⟨l, rfl⟩
  | cons payload payloads ih =>
    obtain ⟨opened, room⟩ := h
    rw [List.map_cons, List.sum_cons] at room
    have fits : (l.queue peer).used + payload.length ≤ (l.queue peer).capacity := by omega
    obtain ⟨q, pushed⟩ : ∃ q, (l.queue peer).push (.ofBytes payload) = .accepted q :=
      ⟨_, Queue.push_eq_accepted_iff.2 ⟨opened, fits, rfl⟩⟩
    have behind := (Queue.push_eq_accepted_iff.1 pushed).2.2
    have left : (l.setQueue peer q).HasRoom peer (payloads.map List.length).sum := by
      constructor <;> rw [queue_setQueue_self, behind]
      · exact opened
      · exact Nat.le_trans (Nat.le_of_eq (Nat.add_assoc ..)) room
    obtain ⟨l', later⟩ := ih left
    exact ⟨l', _, send_yields.2 ⟨_, pushed, rfl⟩, later⟩

end LocalLinks
end GraphRelay
