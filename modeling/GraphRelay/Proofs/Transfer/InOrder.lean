import GraphRelay.Proofs.Transfer.Actions
import GraphRelay.Tensor

/-!
# Links that keep the order

On such links what was sent to a peer waits in a queue of its own until it is received; which of
several peers is heard first is left open. Whatever is sent or fetched payload by payload is then put
at the end of one queue or taken from the front of one queue, and the other queues stay as they are.
-/
namespace GraphRelay

/-- What waits at each peer, oldest first. -/
abbrev Waiting := PeerId → List Bytes

/-- `after` is `before` without these payloads at the front of the queue of `peer`. -/
structure Dequeued (peer : PeerId) (payloads : List Bytes) (before after : Waiting) : Prop where
  own : before peer = payloads ++ after peer
  others : ∀ q, q ≠ peer → after q = before q

/-- `after` is `before` with these payloads at the end of the queue of `peer`. -/
structure Enqueued (peer : PeerId) (payloads : List Bytes) (before after : Waiting) : Prop where
  own : after peer = before peer ++ payloads
  others : ∀ q, q ≠ peer → after q = before q

namespace Dequeued

variable {peer : PeerId} {xs ys : List Bytes} {v w u : Waiting}

theorem refl (peer : PeerId) (w : Waiting) : Dequeued peer [] w w := ⟨rfl, fun _ _ => rfl⟩

theorem append (first : Dequeued peer xs w v) (later : Dequeued peer ys v u) :
    Dequeued peer (xs ++ ys) w u := by
  refine ⟨?_, fun q hq => ?_⟩
  · rw [first.own, later.own, List.append_assoc]
  · rw [later.others q hq, first.others q hq]

end Dequeued

namespace Enqueued

variable {peer : PeerId} {xs ys : List Bytes} {v w u : Waiting}

theorem refl (peer : PeerId) (w : Waiting) : Enqueued peer [] w w :=
  ⟨(List.append_nil _).symm, fun _ _ => rfl⟩

theorem append (first : Enqueued peer xs w v) (later : Enqueued peer ys v u) :
    Enqueued peer (xs ++ ys) w u := by
  refine ⟨?_, fun q hq => ?_⟩
  · rw [later.own, first.own, List.append_assoc]
  · rw [later.others q hq, first.others q hq]

end Enqueued

/-- Links that owe their receiver what `Owed` says: where something is owed a call brings the oldest
payload that a peer owes, and a call for one peer brings that of the peer. Which peer another call hears
is left open. -/
structure Delivers {σ : Type} [Inbox σ] (Owed : Waiting → σ → Prop) : Prop where
  receive {w : Waiting} {s : σ} {peer : PeerId} : Owed w s → w peer ≠ [] →
    ∃ heard payload v t, Inbox.receive.Yields s (heard, payload) t ∧
      Dequeued heard [payload] w v ∧ Owed v t
  receiveFrom {w : Waiting} {s : σ} {peer : PeerId} : Owed w s → w peer ≠ [] →
    ∃ payload v t, (Inbox.receiveFrom peer).Yields s payload t ∧
      Dequeued peer [payload] w v ∧ Owed v t

/-- What a peer owes first can be fetched. -/
theorem Delivers.exists_fetches {σ : Type} [Inbox σ] {Owed : Waiting → σ → Prop}
    (delivers : Delivers Owed) {w : Waiting} {s : σ} {peer : PeerId} {payloads rest : List Bytes}
    (owed : Owed w s) (front : w peer = payloads ++ rest) :
    ∃ v t, Fetches peer payloads s t ∧ Dequeued peer payloads w v ∧ Owed v t := by
  induction payloads generalizing w s with
  | nil => exact ⟨w, s, rfl, .refl peer w, owed⟩
  | cons payload payloads ih =>
    have busy : w peer ≠ [] := by simp [front]
    obtain ⟨found, v, u, first, taken, owed⟩ := delivers.receiveFrom owed busy
    have own := taken.own
    rw [front, List.cons_append, List.singleton_append, List.cons.injEq] at own
    obtain ⟨rfl, others⟩ := own
    obtain ⟨x, t, later, rest, owed⟩ := ih owed others.symm
    exact ⟨x, t, ⟨u, first, later⟩, taken.append rest, owed⟩

/-- Receiving takes the oldest payload of a peer, and finds one where one waits. -/
class FifoInbox (σ : Type) [Inbox σ] where
  waiting : σ → Waiting
  /-- The states in which receiving finds what waits. -/
  Sound : σ → Prop
  receive_dequeued {s t : σ} {peer : PeerId} {payload : Bytes} :
    Inbox.receive.Yields s (peer, payload) t → Dequeued peer [payload] (waiting s) (waiting t)
  receiveFrom_dequeued {s t : σ} {peer : PeerId} {payload : Bytes} :
    (Inbox.receiveFrom peer).Yields s payload t → Dequeued peer [payload] (waiting s) (waiting t)
  receive_sound {s t : σ} {message : PeerId × Bytes} :
    Sound s → Inbox.receive.Yields s message t → Sound t
  receiveFrom_sound {s t : σ} {peer : PeerId} {payload : Bytes} :
    Sound s → (Inbox.receiveFrom peer).Yields s payload t → Sound t
  exists_receive {s : σ} {peer : PeerId} :
    Sound s → waiting s peer ≠ [] → ∃ message t, Inbox.receive.Yields s message t
  exists_receiveFrom {s : σ} {peer : PeerId} :
    Sound s → waiting s peer ≠ [] → ∃ payload t, (Inbox.receiveFrom peer).Yields s payload t

/-- Sending puts a payload behind what waits already; its length is a machine word. -/
class FifoLinks (σ : Type) [Outbox σ] [Inbox σ] extends FifoInbox σ where
  send_enqueued {s t : σ} {peer : PeerId} {payload : Bytes} :
    (Outbox.send peer payload).Yields s () t → Enqueued peer [payload] (waiting s) (waiting t)
  send_sound {s t : σ} {peer : PeerId} {payload : Bytes} :
    Sound s → (Outbox.send peer payload).Yields s () t → Sound t ∧ payload.length < addressable

open FifoInbox FifoLinks

section Receiving

variable {σ : Type} [Inbox σ] [FifoInbox σ] {peer : PeerId} {s t : σ}

/-- Nothing waits to be received. -/
def Idle (s : σ) : Prop := ∀ peer, waiting s peer = []

theorem Fetches.dequeued {payloads : List Bytes} (h : Fetches peer payloads s t) :
    Dequeued peer payloads (waiting s) (waiting t) := by
  induction payloads generalizing s with
  | nil =>
    obtain rfl : t = s := h
    exact .refl peer _
  | cons payload payloads ih =>
    obtain ⟨u, first, later⟩ := h
    exact (receiveFrom_dequeued first).append (ih later)

/-- Sound links owe what waits. -/
theorem delivers_waiting : Delivers fun w (s : σ) => Sound s ∧ waiting s = w where
  receive := by
    rintro _ s peer ⟨sound, rfl⟩ busy
    obtain ⟨⟨heard, payload⟩, t, call⟩ := exists_receive sound busy
    exact ⟨heard, payload, _, t, call, receive_dequeued call, receive_sound sound call, rfl⟩
  receiveFrom := by
    rintro _ s peer ⟨sound, rfl⟩ busy
    obtain ⟨payload, t, call⟩ := exists_receiveFrom sound busy
    exact ⟨payload, _, t, call, receiveFrom_dequeued call, receiveFrom_sound sound call, rfl⟩

variable {first : Bytes} {others : List Bytes}

theorem Hears.dequeued (h : Hears peer first others s t) :
    Dequeued peer (first :: others) (waiting s) (waiting t) := by
  obtain ⟨u, heard, later⟩ := h
  exact (receive_dequeued heard).append later.dequeued

end Receiving

section Sending

variable {σ : Type} [Outbox σ] [Inbox σ] [FifoLinks σ] {peer : PeerId} {s t : σ}
  {payloads : List Bytes}

theorem Sends.enqueued (h : Sends peer payloads s t) :
    Enqueued peer payloads (waiting s) (waiting t) := by
  induction payloads generalizing s with
  | nil =>
    obtain rfl : t = s := h
    exact .refl peer _
  | cons payload payloads ih =>
    obtain ⟨u, first, later⟩ := h
    exact (send_enqueued first).append (ih later)

theorem Sends.sound (h : Sends peer payloads s t) (sound : Sound s) :
    Sound t ∧ ∀ payload ∈ payloads, payload.length < addressable := by
  induction payloads generalizing s with
  | nil =>
    obtain rfl : t = s := h
    exact ⟨sound, by simp⟩
  | cons payload payloads ih =>
    obtain ⟨u, first, later⟩ := h
    obtain ⟨here, short⟩ := send_sound sound first
    obtain ⟨there, shorter⟩ := ih later here
    exact ⟨there, List.forall_mem_cons.2 ⟨short, shorter⟩⟩

end Sending

end GraphRelay
