import GraphRelay.Proofs.Link.Sending

/-!
# What closing leaves of each connection

On every connection the sender's id comes first, and then the frames of the payloads that were accepted
for it. Closing ends the connections that lead to receivers. One in whose place another was opened is not
among them any more.
-/
namespace GraphRelay.Outgoing

open PeerTable (Ascending)

variable {s t : Outgoing} {o o' : Outbound} {c c' : Connection} {e : Event} {es : List Event}
variable {peer me : PeerId} {endpoint : Endpoint} {network : Network} {i : Nat} {payload : Bytes}
variable {q : Queue} {options : LinkOptions}

/-- The payload that the step queued on the connection at `i`. -/
def Event.payload? (i : Nat) : Event → Option Bytes
  | accepted link payload => if link = i then some payload else none
  | _ => none

/-- The connection in whose place the step opened another. -/
def Event.replaced? : Event → Option Nat
  | opened _ _ replaced => replaced
  | _ => none

/-- What was accepted for the connection at `i`, while it led to its receiver. -/
def acceptedOn (i : Nat) (es : List Event) : List Bytes := es.filterMap (Event.payload? i)

/-- Another connection to the same receiver was opened while the one at `i` led there. -/
def Replaced (es : List Event) (i : Nat) : Prop := ∃ e ∈ es, e.replaced? = some i

theorem acceptedOn_concat (i : Nat) (es : List Event) (e : Event) :
    acceptedOn i (es ++ [e]) = acceptedOn i es ++ (e.payload? i).toList :=
  filterMap_concat _ es e

theorem replaced_concat : Replaced (es ++ [e]) i ↔ Replaced es i ∨ e.replaced? = some i := by
  simp only [Replaced, List.mem_append, List.mem_singleton, or_and_right, exists_or, exists_eq_left]

theorem encodeAll_append (one other : List Bytes) :
    Frame.encodeAll (one ++ other) = Frame.encodeAll one ++ Frame.encodeAll other :=
  List.flatMap_append

/-- The id of the sender and what was accepted, written or queued; the queue of an ended connection is
empty. -/
structure Faithful (me : PeerId) (es : List Event) (i : Nat) (c : Connection) : Prop where
  written_eq : c.written ++ Frame.encodeAll c.queue.payloads =
    Wire.int32 me ++ Frame.encodeAll (acceptedOn i es)
  drained : c.ended = true → c.queue.items = []

theorem Faithful.quiet (h : Faithful me es i c) (unsaid : e.payload? i = none) :
    Faithful me (es ++ [e]) i c where
  written_eq := by
    rw [acceptedOn_concat, unsaid]
    simpa using h.written_eq
  drained := h.drained

theorem Faithful.close (h : Faithful me es i c) : Faithful me es i c.close where
  written_eq := by
    rw [← h.written_eq]
    simp [Connection.close, Connection.flush, Queue.close, Queue.drained, Queue.payloads,
      Frame.encodeAll]
  drained _ := rfl

theorem Faithful.send (h : Faithful me es i c) (opened : c.ended = false)
    (pushed : c.queue.push (.ofBytes payload) = .accepted q) :
    Faithful me (es ++ [.accepted i payload]) i { c with queue := q } where
  written_eq := by
    obtain ⟨-, -, rfl⟩ := Queue.push_eq_accepted_iff.1 pushed
    have held : Queue.payloads { c.queue with
        items := c.queue.items ++ [.ofBytes payload]
        used := c.queue.used + (Message.ofBytes payload).length } = c.queue.payloads ++ [payload] := by
      simp [Queue.payloads, Message.ofBytes]
    rw [acceptedOn_concat, held, encodeAll_append, ← List.append_assoc, h.written_eq,
      List.append_assoc, ← encodeAll_append, Event.payload?, if_pos rfl, Option.toList_some]
  drained ended := by
    rw [opened] at ended
    cases ended

theorem Faithful.write (h : Faithful me es i c) (writes : c.writeNext = some c') :
    Faithful me es i c' := by
  obtain ⟨m, q, taken, rfl⟩ := Connection.writeNext_eq_some_iff.1 writes
  have front := (Queue.takeFirst_eq_some_iff.1 taken).1
  refine ⟨?_, fun ended => ?_⟩
  · rw [← h.written_eq]
    simp [Queue.payloads, front, Frame.encodeAll]
  · rw [h.drained ended] at front
    cases front

/-- How the connections of a sender whose writers all get on stand to what was done with it. -/
structure Kept (me : PeerId) (es : List Event) (o : Outbound) : Prop where
  sender_eq : o.sender = me
  unfailed : o.faults = []
  bounded : Bounded o
  /-- No connection leads to two receivers. -/
  unique : ∀ p q i, o.links.find? p = some i → o.links.find? q = some i → p = q
  opened_iff : ∀ i, (∃ peer replaced, .opened peer i replaced ∈ es) ↔ i < o.connections.length
  accepted_lt : ∀ i payload, .accepted i payload ∈ es → i < o.connections.length
  replaced_lt : ∀ i, Replaced es i → i < o.connections.length
  apart : ∀ i, Replaced es i → ∀ q, o.links.find? q ≠ some i
  faithful : ∀ i c, o.connections[i]? = some c → Faithful me es i c
  open_iff : ∀ i c, o.connections[i]? = some c →
    (c.ended = false ↔ (∃ q, o.links.find? q = some i) ∨ Replaced es i)

theorem kept_start (sender : PeerId) (options : LinkOptions) :
    Kept sender [] (.start sender options) where
  sender_eq := rfl
  unfailed := rfl
  bounded _ _ := nofun
  unique _ _ _ := nofun
  opened_iff i := iff_of_false nofun (Nat.not_lt_zero i)
  accepted_lt := nofun
  replaced_lt := nofun
  apart := nofun
  faithful := nofun
  open_iff := nofun

/-- A step that opened no link. -/
def Event.Unopened (e : Event) : Prop := ∀ peer i replaced, e ≠ .opened peer i replaced

theorem Event.Unopened.replaced?_eq (h : e.Unopened) : e.replaced? = none := by
  cases e with
  | opened peer i replaced => exact absurd rfl (h peer i replaced)
  | _ => rfl

theorem replaced_concat_of_unopened (h : e.Unopened) : Replaced (es ++ [e]) i ↔ Replaced es i := by
  rw [replaced_concat, h.replaced?_eq]
  exact or_iff_left nofun

theorem opened_concat_of_unopened (h : e.Unopened) :
    (∃ peer replaced, .opened peer i replaced ∈ es ++ [e]) ↔
      ∃ peer replaced, .opened peer i replaced ∈ es := by
  refine exists_congr fun peer => exists_congr fun replaced => ?_
  rw [List.mem_append, List.mem_singleton]
  exact or_iff_left fun same => h peer i replaced same.symm

theorem accepted_concat {i : Nat} (member : Event.accepted i payload ∈ es ++ [e]) :
    .accepted i payload ∈ es ∨ e = .accepted i payload := by
  rcases List.mem_append.1 member with before | now
  · exact .inl before
  · exact .inr (List.mem_singleton.1 now).symm

theorem payload?_of_ne (other : ∀ payload, e ≠ .accepted i payload) : e.payload? i = none := by
  cases e with
  | accepted link payload => exact if_neg fun same => other payload (by rw [same])
  | _ => rfl

theorem Kept.quiet (h : Kept me es o) (unopened : e.Unopened)
    (unqueued : ∀ i payload, e ≠ .accepted i payload) : Kept me (es ++ [e]) o where
  sender_eq := h.sender_eq
  unfailed := h.unfailed
  bounded := h.bounded
  unique := h.unique
  opened_iff i := (opened_concat_of_unopened unopened).trans (h.opened_iff i)
  accepted_lt i payload member :=
    h.accepted_lt i payload ((accepted_concat member).resolve_right (unqueued i payload))
  replaced_lt i replaced := h.replaced_lt i ((replaced_concat_of_unopened unopened).1 replaced)
  apart i replaced := h.apart i ((replaced_concat_of_unopened unopened).1 replaced)
  faithful i c found := (h.faithful i c found).quiet (payload?_of_ne (unqueued i))
  open_iff i c found := by
    rw [replaced_concat_of_unopened unopened]
    exact h.open_iff i c found

/-- A step that touched one connection and ended none. -/
theorem Kept.setConnection (h : Kept me es o) (found : o.connections[i]? = some c)
    (same : c'.ended = c.ended) (unopened : e.Unopened)
    (own : ∀ j payload, e = .accepted j payload → j = i)
    (faithful : Faithful me (es ++ [e]) i c') : Kept me (es ++ [e]) (o.setConnection i c') where
  sender_eq := h.sender_eq
  unfailed := h.unfailed
  bounded q j leads := by
    rw [Outbound.setConnection, List.length_set]
    exact h.bounded q j leads
  unique := h.unique
  opened_iff j := by
    rw [Outbound.setConnection, List.length_set]
    exact (opened_concat_of_unopened unopened).trans (h.opened_iff j)
  accepted_lt j payload member := by
    rw [Outbound.setConnection, List.length_set]
    rcases accepted_concat member with before | now
    · exact h.accepted_lt j payload before
    · rw [own j payload now]
      exact (List.getElem?_eq_some_iff.1 found).1
  replaced_lt j replaced := by
    rw [Outbound.setConnection, List.length_set]
    exact h.replaced_lt j ((replaced_concat_of_unopened unopened).1 replaced)
  apart j replaced := h.apart j ((replaced_concat_of_unopened unopened).1 replaced)
  faithful j d at' := by
    by_cases here : i = j
    · subst here
      rw [Outbound.setConnection_getElem? found] at at'
      exact Option.some.inj at' ▸ faithful
    · rw [Outbound.setConnection, List.getElem?_set_ne here] at at'
      exact (h.faithful j d at').quiet (payload?_of_ne fun payload now => here (own j payload now).symm)
  open_iff j d at' := by
    rw [replaced_concat_of_unopened unopened]
    by_cases here : i = j
    · subst here
      rw [Outbound.setConnection_getElem? found] at at'
      rw [← Option.some.inj at', same]
      exact h.open_iff i c found
    · rw [Outbound.setConnection, List.getElem?_set_ne here] at at'
      exact h.open_iff j d at'

theorem Kept.send (h : Kept me es o) (current : o.current? peer = some (i, c))
    (pushed : c.queue.push (.ofBytes payload) = .accepted q) :
    Kept me (es ++ [.accepted i payload]) (o.setConnection i { c with queue := q }) := by
  obtain ⟨leads, found⟩ := current?_eq_some_iff.1 current
  have opened : c.ended = false := (h.open_iff i c found).2 (.inl ⟨peer, leads⟩)
  refine h.setConnection found rfl nofun (fun j payload same => ?_)
    ((h.faithful i c found).send opened pushed)
  cases same
  rfl

theorem Kept.write (h : Kept me es o) (found : o.connections[i]? = some c)
    (writes : c.writeNext = some c') : Kept me (es ++ [.wrote i]) (o.setConnection i c') := by
  have same : c'.ended = c.ended := by
    obtain ⟨m, q, -, rfl⟩ := Connection.writeNext_eq_some_iff.1 writes
    rfl
  exact h.setConnection found same nofun nofun (((h.faithful i c found).write writes).quiet rfl)

/-- Of the connections that are still open, closing leaves those that were replaced. -/
theorem Kept.closeLinks (h : Kept me es o) (ascending : Ascending o.links) :
    Kept me es o.closeLinks where
  sender_eq := h.sender_eq
  unfailed := h.unfailed
  bounded _ _ := nofun
  unique _ _ _ := nofun
  opened_iff i := by
    rw [Outbound.closeLinks_length]
    exact h.opened_iff i
  accepted_lt i payload member := by
    rw [Outbound.closeLinks_length]
    exact h.accepted_lt i payload member
  replaced_lt i replaced := by
    rw [Outbound.closeLinks_length]
    exact h.replaced_lt i replaced
  apart _ _ _ := nofun
  faithful i c found := by
    rw [Outbound.closeLinks_getElem?] at found
    obtain ⟨old, at', rfl⟩ := Option.map_eq_some_iff.1 found
    split
    · exact (h.faithful i old at').close
    · exact h.faithful i old at'
  open_iff i c found := by
    rw [Outbound.closeLinks_getElem?] at found
    obtain ⟨old, at', rfl⟩ := Option.map_eq_some_iff.1 found
    have unlinked : ¬∃ q, o.closeLinks.links.find? q = some i := nofun
    rw [or_iff_right unlinked]
    split
    · next member =>
      obtain ⟨⟨p, j⟩, linked, rfl⟩ := List.mem_map.1 member
      exact iff_of_false nofun fun replaced => h.apart j replaced p (ascending.find?_of_mem linked)
    · next apart =>
      have none : ¬∃ q, o.links.find? q = some i := fun ⟨q, leads⟩ =>
        apart (List.mem_map_of_mem (PeerTable.mem_of_find? leads))
      rw [h.open_iff i old at', or_iff_right none]

theorem getElem?_concat_cases {α : Type} {xs : List α} {x y : α} {i : Nat}
    (found : (xs ++ [x])[i]? = some y) : xs[i]? = some y ∨ i = xs.length ∧ y = x := by
  rcases Nat.lt_or_ge i xs.length with before | behind
  · exact .inl (by rwa [List.getElem?_append_left before] at found)
  · rw [List.getElem?_append_right behind, List.getElem?_singleton] at found
    split at found
    · next last => exact .inr ⟨by omega, (Option.some.inj found).symm⟩
    · cases found

theorem find?_insert_eq_some_iff {table : PeerTable Nat} {p : PeerId} {n : Nat} :
    (table.insert peer n).find? p = some i ↔
      p = peer ∧ i = n ∨ p ≠ peer ∧ table.find? p = some i := by
  rw [PeerTable.find?_insert]
  by_cases own : p = peer
  · simp [own, eq_comm]
  · simp [own]

theorem opened_concat_opened {n : Nat} {old : Option Nat} :
    (∃ p replaced, .opened p i replaced ∈ es ++ [.opened peer n old]) ↔
      (∃ p replaced, .opened p i replaced ∈ es) ∨ i = n := by
  simp only [List.mem_append, List.mem_singleton, Event.opened.injEq]
  constructor
  · rintro ⟨p, replaced, before | ⟨-, now, -⟩⟩
    · exact .inl ⟨p, replaced, before⟩
    · exact .inr now
  · rintro (⟨p, replaced, before⟩ | now)
    · exact ⟨p, replaced, .inl before⟩
    · exact ⟨peer, old, .inr ⟨rfl, now, rfl⟩⟩

/-- What a link was opened in place of is one of the connections. -/
theorem Kept.lt_of_replaced (h : Kept me es o)
    (replaced : Replaced es i ∨ o.links.find? peer = some i) : i < o.connections.length :=
  replaced.elim (h.replaced_lt i) (h.bounded peer i)

theorem Kept.unique_insert (h : Kept me es o) (p q : PeerId) (i : Nat)
    (one : (o.links.insert peer o.connections.length).find? p = some i)
    (other : (o.links.insert peer o.connections.length).find? q = some i) : p = q := by
  rcases find?_insert_eq_some_iff.1 one with ⟨rfl, rfl⟩ | ⟨-, first⟩
  · rcases find?_insert_eq_some_iff.1 other with ⟨rfl, -⟩ | ⟨-, second⟩
    · rfl
    · exact absurd (h.bounded q _ second) (Nat.lt_irrefl _)
  · rcases find?_insert_eq_some_iff.1 other with ⟨rfl, rfl⟩ | ⟨-, second⟩
    · exact absurd (h.bounded p _ first) (Nat.lt_irrefl _)
    · exact h.unique p q i first second

/-- A link leads neither to what was replaced before nor to what the new one replaces. -/
theorem Kept.apart_insert (h : Kept me es o)
    (replaced : Replaced es i ∨ o.links.find? peer = some i) (q : PeerId) :
    (o.links.insert peer o.connections.length).find? q ≠ some i := by
  intro leads
  rcases find?_insert_eq_some_iff.1 leads with ⟨-, rfl⟩ | ⟨other, leads⟩
  · exact Nat.lt_irrefl _ (h.lt_of_replaced replaced)
  · rcases replaced with before | now
    · exact h.apart i before q leads
    · exact other (h.unique q peer i leads now)

/-- The new link changes where its receiver's link leads, and the old one counts as replaced. -/
theorem leads_or_replaced_insert (before : i < o.connections.length) :
    (∃ q, (o.links.insert peer o.connections.length).find? q = some i) ∨
      Replaced es i ∨ o.links.find? peer = some i ↔
    (∃ q, o.links.find? q = some i) ∨ Replaced es i := by
  simp only [find?_insert_eq_some_iff]
  constructor
  · rintro (⟨q, ⟨-, same⟩ | ⟨-, leads⟩⟩ | replaced | leads)
    · exact absurd same (Nat.ne_of_lt before)
    · exact .inl ⟨q, leads⟩
    · exact .inr replaced
    · exact .inl ⟨peer, leads⟩
  · rintro (⟨q, leads⟩ | replaced)
    · by_cases own : q = peer
      · exact .inr (.inr (own ▸ leads))
      · exact .inl ⟨q, .inr ⟨own, leads⟩⟩
    · exact .inr (.inl replaced)

/-- Nothing was accepted for a connection before it was there. -/
theorem Kept.acceptedOn_eq_nil (h : Kept me es o) : acceptedOn o.connections.length es = [] := by
  refine List.filterMap_eq_nil_iff.2 fun e member => payload?_of_ne fun payload now => ?_
  exact absurd (h.accepted_lt _ payload (now ▸ member)) (Nat.lt_irrefl _)

theorem Kept.openLink (h : Kept me es o)
    (opens : Outbound.openLink network peer endpoint o = .ok o') :
    Kept me (es ++ [.opened peer o.connections.length (o.links.find? peer)]) o' := by
  have bounded := h.bounded.openLink opens
  rw [Outbound.openLink_ok opens] at bounded ⊢
  have replaced_iff : ∀ i,
      Replaced (es ++ [.opened peer o.connections.length (o.links.find? peer)]) i ↔
        Replaced es i ∨ o.links.find? peer = some i := fun i => replaced_concat
  refine ⟨h.sender_eq, h.unfailed, bounded, h.unique_insert, fun i => ?_, fun i payload member => ?_,
    fun i replaced => ?_, fun i replaced => h.apart_insert ((replaced_iff i).1 replaced),
    fun i c found => ?_, fun i c found => ?_⟩
  · rw [List.length_append, List.length_singleton, Nat.lt_succ_iff_lt_or_eq, ← h.opened_iff]
    exact opened_concat_opened
  · have before := (accepted_concat member).resolve_right nofun
    rw [List.length_append, List.length_singleton]
    exact Nat.lt_succ_of_lt (h.accepted_lt i payload before)
  · rw [List.length_append, List.length_singleton]
    exact Nat.lt_succ_of_lt (h.lt_of_replaced ((replaced_iff i).1 replaced))
  · rcases getElem?_concat_cases found with found | ⟨rfl, rfl⟩
    · exact (h.faithful i c found).quiet rfl
    · refine ⟨?_, nofun⟩
      rw [acceptedOn_concat, h.acceptedOn_eq_nil, ← h.sender_eq]
      rfl
  · rw [replaced_iff]
    rcases getElem?_concat_cases found with found | ⟨rfl, rfl⟩
    · rw [h.open_iff i c found]
      exact (leads_or_replaced_insert (List.getElem?_eq_some_iff.1 found).1).symm
    · exact iff_of_true rfl (.inl ⟨peer, find?_insert_eq_some_iff.2 (.inl ⟨rfl, rfl⟩)⟩)

/-- Registrations do not matter to the connections there are. -/
theorem Kept.withRegistered (h : Kept me es o) (table : PeerTable Endpoint) :
    Kept me es { o with registered := table } :=
  ⟨h.sender_eq, h.unfailed, h.bounded, h.unique, h.opened_iff, h.accepted_lt, h.replaced_lt, h.apart,
    h.faithful, h.open_iff⟩

theorem Kept.register {result : Except Fault Unit} {address : String} (h : Kept me es o)
    (comes : (Outbound.register address peer).outcome o = (result, o')) : Kept me es o' := by
  obtain ⟨rfl, -⟩ | ⟨endpoint, -, -, rfl, -⟩ := register_cases comes
  · exact h
  · exact h.withRegistered _

theorem Kept.step (h : Kept me es s.outbound) (tidy : Tidy s.outbound) (step : Step e s t)
    (getsOn : ∀ i f, e ≠ .gaveUp i f) : Kept me (es ++ [e]) t.outbound := by
  cases step with
  | register comes | registerRefused comes => exact (h.register comes).quiet nofun nofun
  | noReceivers | connect | connected | missing | sendRefused => exact h.quiet nofun nofun
  | openNext opens => exact h.openLink opens
  | openRefused => exact (h.closeLinks tidy.links).quiet nofun nofun
  | send current pushed => exact h.send current pushed
  | write found writes => exact h.write found writes
  | giveUp => exact absurd rfl (getsOn _ _)
  | finalize => exact ((h.closeLinks tidy.links).withRegistered []).quiet nofun nofun

theorem Kept.run (run : Chain Step es ⟨.start me options, none⟩ s)
    (getsOn : ∀ i f, .gaveUp i f ∉ es) : Tidy s.outbound ∧ Kept me es s.outbound := by
  have all : Tidy s.outbound ∧ ((∀ i f, .gaveUp i f ∉ [] ++ es) → Kept me ([] ++ es) s.outbound) := by
    refine run.keeps (P := fun es s => Tidy s.outbound ∧
      ((∀ i f, .gaveUp i f ∉ es) → Kept me es s.outbound))
      ⟨tidy_start me options, fun _ => kept_start me options⟩ ?_
    rintro past e s t ⟨tidy, kept⟩ step
    refine ⟨tidy.step step, fun getsOn => ?_⟩
    have before : ∀ i f, .gaveUp i f ∉ past := fun i f member => getsOn i f (by simp [member])
    exact (kept before).step tidy step fun i f same => getsOn i f (by simp [same])
  exact ⟨all.1, all.2 getsOn⟩

theorem finalFault_eq_none (unfailed : o.faults = []) : o.finalFault = none := by
  rw [Outbound.finalFault, unfailed, List.findSome?_eq_none_iff]
  exact fun _ _ => rfl

/-- Whatever was asked of a sender whose writers all get on, its connections are those that were opened,
and each has been written the sender's id and then the frames of what was accepted for it, in that order,
up to what is still queued. Finalizing is not refused. It leaves a connection ended, with everything
written, exactly if no other was opened in its place; one that was replaced stays open for good. Any
calls are such a run. -/
theorem finalize_ends (me : PeerId) (options : LinkOptions)
    (run : Chain Step es ⟨.start me options, none⟩ ⟨o, none⟩) (getsOn : ∀ i f, .gaveUp i f ∉ es) :
    (∀ i, (∃ peer replaced, .opened peer i replaced ∈ es) ↔ i < o.connections.length) ∧
    (∀ i c, o.connections[i]? = some c → c.written ++ Frame.encodeAll c.queue.payloads =
      Wire.int32 me ++ Frame.encodeAll (acceptedOn i es)) ∧
    o.finalFault = none ∧ o.finalize.links = [] ∧
    o.finalize.connections.length = o.connections.length ∧
    (∀ i c, o.finalize.connections[i]? = some c →
      (c.ended = true ↔ ¬Replaced es i) ∧
      (c.ended = true → c.written = Wire.int32 me ++ Frame.encodeAll (acceptedOn i es)) ∧
      (c.ended = false → o.connections[i]? = some c)) ∧
    ∀ calls : List Call, ∃ later, (∀ i f, .gaveUp i f ∉ later) ∧
      Chain Step (es ++ later) ⟨.start me options, none⟩ ⟨calls.foldl Call.apply o, none⟩ := by
  obtain ⟨tidy, kept⟩ := Kept.run run getsOn
  have closed := kept.closeLinks tidy.links
  refine ⟨kept.opened_iff, fun i c found => (kept.faithful i c found).written_eq,
    finalFault_eq_none kept.unfailed, rfl, o.closeLinks_length,
    fun i c found => ⟨?_, fun ended => ?_, fun opened => ?_⟩, fun calls => ?_⟩
  · have unlinked : ¬∃ q, o.closeLinks.links.find? q = some i := nofun
    have open_iff := closed.open_iff i c found
    rw [or_iff_right unlinked] at open_iff
    rw [← open_iff, Bool.not_eq_false]
  · have faithful := closed.faithful i c found
    have written := faithful.written_eq
    rw [Queue.payloads, faithful.drained ended] at written
    simpa [Frame.encodeAll] using written
  · have at' : o.closeLinks.connections[i]? = some c := found
    rw [Outbound.closeLinks_getElem?] at at'
    obtain ⟨old, before, rfl⟩ := Option.map_eq_some_iff.1 at'
    split at opened
    · cases opened
    · next apart => rw [if_neg apart, before]
  · obtain ⟨later, unfailed, more⟩ := leads_calls calls tidy
    exact ⟨later, fun i f member => unfailed _ member i f rfl, chain_append.2 ⟨_, run, more⟩⟩

/-- A receiver is connected to twice, and a payload is sent in between. -/
def twiceCalls : List Call :=
  [.register "socket://127.0.0.1:1" 0, .connect fun _ => .reachable, .send 0 [7],
    .connect fun _ => .reachable]

/-- Finalizing ends the second connection only. -/
theorem twice_unended :
    (twiceCalls.foldl Call.apply (.start 4 .default)).finalize.connections.map Connection.ended =
      [false, true] :=
  rfl

def twiceEvents : List Event :=
  [.registered 0, .began, .opened 0 0 none, .connected, .accepted 0 [7], .began, .opened 0 1 (some 0),
    .connected, .wrote 0]

def twiceEndpoint : Endpoint := ⟨"127.0.0.1", 1⟩

/-- The sender with these connections, the links leading to them. -/
def twiceSender (connections : List Connection) (links : PeerTable Nat) : Outbound :=
  ⟨4, .default, [(0, twiceEndpoint)], connections, links, []⟩

def twiceConnection (queue : Queue) (written : Bytes) : Connection :=
  ⟨twiceEndpoint, queue, Wire.int32 4 ++ written, false⟩

/-- Both connections are there, and the writer of the first is through. -/
def twiceOpened : Outbound :=
  twiceSender [twiceConnection (.empty 67108864) (Frame.encode [7]),
    twiceConnection (.empty 67108864) []] [(0, 1)]

theorem twice_run : Chain Step twiceEvents ⟨.start 4 .default, none⟩ ⟨twiceOpened, none⟩ := by
  let fresh := twiceConnection (.empty 67108864) []
  let filled := twiceConnection ⟨67108864, [.ofBytes [7]], 1, false⟩ []
  let once := twiceSender [fresh] [(0, 0)]
  let queued := twiceSender [filled] [(0, 0)]
  refine ⟨_, @Step.register _ (twiceSender [] []) "socket://127.0.0.1:1" 0 rfl, _, .connect nofun, ?_⟩
  refine ⟨_, @Step.openNext (twiceSender [] []) once .reachable 0 twiceEndpoint [] rfl, ?_⟩
  refine ⟨_, .connected, ⟨queued, none⟩, @Step.send once 0 fresh 0 [7] _ rfl rfl, ?_⟩
  refine ⟨_, .connect nofun, ?_⟩
  refine ⟨_, @Step.openNext queued (twiceSender [filled, fresh] [(0, 1)]) .reachable 0 twiceEndpoint []
    rfl, _, .connected, ?_⟩
  exact ⟨_, @Step.write (twiceSender [filled, fresh] [(0, 1)]) _ 0 filled _ rfl rfl, rfl⟩

theorem twice_finalized : Chain Step twiceEvents ⟨.start 4 .default, none⟩ ⟨twiceOpened, none⟩ ∧
    (∀ i f, .gaveUp i f ∉ twiceEvents) ∧ Replaced twiceEvents 0 ∧
    ∀ c, twiceOpened.finalize.connections[0]? = some c → c.ended = false := by
  have getsOn : ∀ i f, .gaveUp i f ∉ twiceEvents := by simp [twiceEvents]
  have replaced : Replaced twiceEvents 0 := ⟨.opened 0 1 (some 0), by decide, rfl⟩
  refine ⟨twice_run, getsOn, replaced, fun c found => ?_⟩
  obtain ⟨-, -, -, -, -, ended, -⟩ := finalize_ends 4 .default twice_run getsOn
  rw [← Bool.not_eq_true, (ended 0 c found).1]
  exact fun unreplaced => unreplaced replaced

end GraphRelay.Outgoing
