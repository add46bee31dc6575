import GraphRelay.Proofs.Link.ReceivingInOrder
import GraphRelay.Proofs.Transfer.InOrder

/-!
# What links owe

A receiver whose links stand for unbroken streams owes each sender's payloads. Readers change nothing
about that, and what a call returns was owed first. So a call that runs brings something wherever
something is owed.
-/
namespace GraphRelay

variable {limit i n : Nat} {link link' : InboundLink} {frames : List Bytes} {failure : Option Fault}

namespace InboundLink

theorem Owes.await (h : link.Owes limit frames failure) :
    (link.await limit).Owes limit frames failure := by
  rw [InboundLink.await]
  split
  · cases moved : link.advance limit with
    | none => exact h
    | some link' => exact h.advance moved
  · exact h

theorem Owes.failure_of_isFinished (h : link.Owes limit frames failure)
    (finished : link.queue.isFinished = true) : link.failure = failure :=
  (h.of_closed (Bool.and_eq_true_iff.1 finished).1).2

/-- The queue of a link that owes something holds it, once the link is ready. -/
theorem Owes.exists_taken (h : link.Owes limit frames failure) (ready : Reception.Ready link)
    (busy : frames ≠ []) : ∃ m q, link.queue.takeFirst = some (m, q) := by
  cases taken : link.queue.takeFirst with
  | some first => exact ⟨first.1, first.2, rfl⟩
  | none => exact absurd (h.eq_nil_of_isFinished (ready taken)) busy

end InboundLink

namespace Inbound

/-- Senders are distinct, and each link owes what `w` says of its sender, after which its stream ends
unfailed. Nothing is owed by anybody else. -/
structure Owing (w : Waiting) (r : Inbound) : Prop where
  distinct : r.senders.Nodup
  owes : ∀ link ∈ r.links, link.Owes r.options.frameLimit (w link.sender) none
  others : ∀ peer, peer ∉ r.senders → w peer = []

variable {w v : Waiting} {r : Inbound} {peer : PeerId} {payloads : List Bytes} {m : Message} {q : Queue}

theorem Owing.mem_senders (h : Owing w r) (busy : w peer ≠ []) : peer ∈ r.senders := by
  by_contra absent
  exact busy (h.others peer absent)

theorem senders_setLink (found : r.links[i]? = some link) (same : link'.sender = link.sender) :
    (r.setLink i link').senders = r.senders := by
  have own : r.senders[i]? = some link.sender := by simp [senders, found]
  obtain ⟨inside, own⟩ := List.getElem?_eq_some_iff.1 own
  rw [senders, setLink, List.map_set, same, ← own]
  exact List.set_getElem_self inside

/-- Links with one sender are one link. -/
theorem eq_of_sender_eq (distinct : r.senders.Nodup) {j : Nat} (found : r.links[i]? = some link)
    (found' : r.links[j]? = some link') (same : link'.sender = link.sender) : i = j := by
  have first : r.senders[i]? = some link.sender := by simp [senders, found]
  have second : r.senders[j]? = some link.sender := by simp [senders, found', same]
  obtain ⟨inside, -⟩ := List.getElem?_eq_some_iff.1 first
  exact (List.getElem?_inj inside distinct).1 (first.trans second.symm)

/-- One link was touched, and what its sender is still owed follows. -/
theorem Owing.setLink (h : Owing w r) (found : r.links[i]? = some link)
    (same : link'.sender = link.sender) (taken : Dequeued link.sender payloads w v)
    (owes : link'.Owes r.options.frameLimit (v link.sender) none) : Owing v (r.setLink i link') where
  distinct := senders_setLink found same ▸ h.distinct
  owes other member := by
    obtain ⟨j, at'⟩ := List.getElem?_of_mem member
    by_cases own : i = j
    · subst own
      obtain ⟨inside, -⟩ := List.getElem?_eq_some_iff.1 found
      obtain rfl : link' = other := by simpa [Inbound.setLink, inside] using at'
      rw [same]
      exact owes
    · have old : r.links[j]? = some other := by
        simpa [Inbound.setLink, List.getElem?_set_ne own] using at'
      have apart : other.sender ≠ link.sender := fun eq => own (eq_of_sender_eq h.distinct found old eq)
      rw [taken.others _ apart]
      exact h.owes other (List.mem_of_getElem? old)
  others peer absent := by
    rw [senders_setLink found same] at absent
    have other : peer ≠ link.sender := by
      rintro rfl
      exact absent (List.mem_map_of_mem (List.mem_of_getElem? found))
    rw [taken.others peer other]
    exact h.others peer absent

theorem Owing.advance (h : Owing w r) (found : r.links[i]? = some link)
    (moved : link.advance r.options.frameLimit = some link') : Owing w (r.setLink i link') :=
  h.setLink found (InboundLink.advance_sender moved) (.refl _ w)
    ((h.owes link (List.mem_of_getElem? found)).advance moved)

/-- What is taken from a link was owed first. -/
theorem Owing.take (h : Owing w r) (found : r.links[i]? = some link)
    (taken : link.queue.takeFirst = some (m, q)) :
    ∃ v, Dequeued link.sender [m.payload] w v ∧ Owing v (r.setLink i { link with queue := q }) := by
  obtain ⟨later, own, owes⟩ := (h.owes link (List.mem_of_getElem? found)).take taken
  have front : Dequeued link.sender [m.payload] w (Function.update w link.sender later) := by
    refine ⟨?_, fun other ne => Function.update_of_ne ne ..⟩
    rw [Function.update_self, own, List.singleton_append]
  refine ⟨_, front, h.setLink found rfl front ?_⟩
  rwa [Function.update_self]

theorem Owing.takeTurn (h : Owing w r) : Owing w r.takeTurn := ⟨h.distinct, h.owes, h.others⟩

theorem senders_awaitAll (r : Inbound) : r.awaitAll.senders = r.senders := by
  rw [senders, awaitAll, List.map_map, senders]
  exact List.map_congr_left fun link _ => Reception.await_sender

theorem Owing.awaitAll (h : Owing w r) :
    Owing w r.awaitAll ∧ ∀ link ∈ r.awaitAll.links, Reception.Ready link := by
  refine ⟨⟨senders_awaitAll r ▸ h.distinct, fun link member => ?_, fun peer absent => ?_⟩,
    fun link member => ?_⟩
  · obtain ⟨old, before, rfl⟩ := List.mem_map.1 member
    rw [Reception.await_sender]
    exact (h.owes old before).await
  · rw [senders_awaitAll] at absent
    exact h.others peer absent
  · obtain ⟨old, before, rfl⟩ := List.mem_map.1 member
    exact Reception.ready_await (h.owes old before)

theorem mem_linksFrom_iff {k : Nat} : (i, link) ∈ r.linksFrom k ↔ r.links[i]? = some link := by
  rw [linksFrom, List.mem_append, or_comm, ← List.mem_append, List.take_append_drop]
  simp [List.mem_zipIdx_iff_getElem?]

/-- A look at ready links finds a message if one of them owes something. -/
theorem look_eq_message {xs : List (Nat × InboundLink)}
    (owes : ∀ x ∈ xs, x.2.Owes limit (w x.2.sender) none) (ready : ∀ x ∈ xs, Reception.Ready x.2)
    (busy : ∃ x ∈ xs, w x.2.sender ≠ []) :
    ∃ i link m q, (i, link) ∈ xs ∧ link.queue.takeFirst = some (m, q) ∧
      look xs = .message i m.payload { link with queue := q } := by
  induction xs with
  | nil => simp at busy
  | cons x xs ih =>
    obtain ⟨i, link⟩ := x
    obtain ⟨own, others⟩ := List.forall_mem_cons.1 owes
    obtain ⟨ownReady, othersReady⟩ := List.forall_mem_cons.1 ready
    rw [look]
    cases taken : link.queue.takeFirst with
    | some first => exact ⟨i, link, first.1, first.2, List.mem_cons_self, taken, rfl⟩
    | none =>
      have finished := ownReady taken
      have later : ∃ x ∈ xs, w x.2.sender ≠ [] := by
        obtain ⟨x, member, busy⟩ := busy
        rcases List.mem_cons.1 member with rfl | member
        · exact absurd (own.eq_nil_of_isFinished finished) busy
        · exact ⟨x, member, busy⟩
      obtain ⟨j, next, m, q, member, first, looked⟩ := ih others othersReady later
      have unfailed : link.failure = none := own.failure_of_isFinished finished
      refine ⟨j, next, m, q, List.mem_cons_of_mem _ member, first, ?_⟩
      simp only [finished, unfailed, Bool.not_true, Bool.false_eq_true, if_false, Option.isSome_none,
        looked]

/-- The link that a call for a sender waits for. -/
theorem exists_position (member : peer ∈ r.senders) : ∃ i link,
    r.links.findIdx? (·.sender = peer) = some i ∧ r.links[i]? = some link ∧ link.sender = peer := by
  obtain ⟨link, linked, own⟩ := List.mem_map.1 member
  have some : (r.links.findIdx? (·.sender = peer)).isSome = true :=
    List.findIdx?_isSome.trans (List.any_eq_true.2 ⟨link, linked, decide_eq_true own⟩)
  obtain ⟨i, position⟩ := Option.isSome_iff_exists.1 some
  obtain ⟨inside, own, -⟩ := List.findIdx?_eq_some_iff_getElem.1 position
  exact ⟨i, r.links[i], position, List.getElem?_eq_getElem inside, of_decide_eq_true own⟩

/-- Where something is owed the calls that run return it. -/
theorem delivers_owing : Delivers Owing where
  receive := by
    intro w r peer h busy
    obtain ⟨owing, ready⟩ := h.awaitAll
    obtain ⟨link, linked, own⟩ := List.mem_map.1 (owing.mem_senders busy)
    obtain ⟨i, at'⟩ := List.getElem?_of_mem linked
    let u := r.awaitAll.takeTurn
    have listed : ∀ x ∈ u.linksFrom r.nextFirst, x.2 ∈ r.awaitAll.links := fun x member =>
      List.mem_of_getElem? (mem_linksFrom_iff.1 member)
    obtain ⟨j, front, m, q, member, taken, looked⟩ := look_eq_message
      (fun x member => owing.owes x.2 (listed x member)) (fun x member => ready x.2 (listed x member))
      ⟨(i, link), mem_linksFrom_iff.2 at', own ▸ busy⟩
    obtain ⟨v, dequeued, kept⟩ := owing.takeTurn.take (mem_linksFrom_iff.1 member) taken
    refine ⟨front.sender, m.payload, v, _, ?_, dequeued, kept⟩
    have linked : r.links.isEmpty = false := by
      have some : r.awaitAll.links ≠ [] := List.ne_nil_of_mem (List.mem_of_getElem? at')
      simpa [Inbound.awaitAll] using some
    rw [LinkAction.Yields]
    refine (Reception.receive_outcome r).trans ?_
    simp only [linked, Bool.false_eq_true, if_false]
    rw [looked]
  receiveFrom := by
    intro w r peer h busy
    obtain ⟨i, link, position, found, rfl⟩ := exists_position (h.mem_senders busy)
    have owes := h.owes link (List.mem_of_getElem? found)
    obtain ⟨m, q, taken⟩ := owes.await.exists_taken (Reception.ready_await owes) busy
    have waits := h.setLink found Reception.await_sender (.refl _ w) owes.await
    have at' : (r.setLink i (link.await r.options.frameLimit)).links[i]? =
        some (link.await r.options.frameLimit) := by
      simp [Inbound.setLink, (List.getElem?_eq_some_iff.1 found).1]
    obtain ⟨v, dequeued, kept⟩ := waits.take at' taken
    rw [Reception.setLink_setLink] at kept
    rw [Reception.await_sender] at dequeued
    refine ⟨m.payload, v, _, ?_, dequeued, kept⟩
    rw [LinkAction.Yields]
    refine (Reception.receiveFrom_outcome r link.sender).trans ?_
    simp only [position, found, taken]

end Inbound

end GraphRelay
