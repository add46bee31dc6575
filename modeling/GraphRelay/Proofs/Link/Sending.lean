import GraphRelay.Link.Outbound
import GraphRelay.Proofs.PeerTable
import GraphRelay.Proofs.Queue.Runs
import GraphRelay.Proofs.Transfer.Actions
import GraphRelay.Proofs.Traversal

/-!
# Steps of a sender

A call that connects opens links one by one, and at any time the writer of a connection writes the next
payload or gives up. A sender goes through such steps, and the calls that run are made of them.
-/
namespace GraphRelay

namespace Outbound

def setConnection (o : Outbound) (i : Nat) (c : Connection) : Outbound :=
  { o with connections := o.connections.set i c }

/-- What a sender is told for whom a queue has refused a payload. -/
def sendFault (peer : PeerId) : Fault → Fault
  | .queueClosed => .receiverClosed peer.toInt
  | f => f

/-- The writer of the connection at `i` gave up. -/
def giveUp (o : Outbound) (i : Nat) (taken : Bytes) (c : Connection) (f : Fault) : Outbound :=
  { o.setConnection i (c.abandon taken) with faults := o.faults ++ [(i, f)] }

end Outbound

/-- A sender, and the links that a call is still to open while one is at it. -/
structure Outgoing where
  outbound : Outbound
  toOpen : Option (List (PeerId × Endpoint))

namespace Outgoing

inductive Event where
  | registered (peer : PeerId)
  | refused (fault : Fault)
  | began
  /-- The connection at `link` leads to a receiver now, and no longer the one in whose place it came. -/
  | opened (peer : PeerId) (link : Nat) (replaced : Option Nat)
  | connected
  /-- A payload for the receiver to whom the connection at `link` leads. -/
  | accepted (link : Nat) (payload : Bytes)
  | wrote (link : Nat)
  | gaveUp (link : Nat) (fault : Fault)
  | finalized (fault : Option Fault)
  deriving DecidableEq, Repr

inductive Step : Event → Outgoing → Outgoing → Prop where
  | register {o o' : Outbound} {address : String} {peer : PeerId} :
      (Outbound.register address peer).Yields o () o' → Step (.registered peer) ⟨o, none⟩ ⟨o', none⟩
  | registerRefused {o o' : Outbound} {address : String} {peer : PeerId} {f : Fault} :
      (Outbound.register address peer).Refuses o f o' → Step (.refused f) ⟨o, none⟩ ⟨o', none⟩
  | noReceivers {o : Outbound} : o.registered = [] →
      Step (.refused .noReceivers) ⟨o, none⟩ ⟨o, none⟩
  | connect {o : Outbound} : o.registered ≠ [] → Step .began ⟨o, none⟩ ⟨o, some o.registered⟩
  | openNext {o o' : Outbound} {network : Network} {peer : PeerId} {endpoint : Endpoint}
      {rest : List (PeerId × Endpoint)} : Outbound.openLink network peer endpoint o = .ok o' →
      Step (.opened peer o.connections.length (o.links.find? peer))
        ⟨o, some ((peer, endpoint) :: rest)⟩ ⟨o', some rest⟩
  | openRefused {o : Outbound} {network : Network} {peer : PeerId} {endpoint : Endpoint}
      {rest : List (PeerId × Endpoint)} {f : Fault} :
      Outbound.openLink network peer endpoint o = .error f →
      Step (.refused f) ⟨o, some ((peer, endpoint) :: rest)⟩ ⟨o.closeLinks, none⟩
  | connected {o : Outbound} : Step .connected ⟨o, some []⟩ ⟨o, none⟩
  | send {o : Outbound} {i : Nat} {c : Connection} {peer : PeerId} {payload : Bytes} {q : Queue} :
      o.current? peer = some (i, c) → c.queue.push (.ofBytes payload) = .accepted q →
      Step (.accepted i payload) ⟨o, none⟩ ⟨o.setConnection i { c with queue := q }, none⟩
  | missing {o : Outbound} {peer : PeerId} : o.current? peer = none →
      Step (.refused (.receiverMissing peer.toInt)) ⟨o, none⟩ ⟨o, none⟩
  | sendRefused {o : Outbound} {i : Nat} {c : Connection} {peer : PeerId} {payload : Bytes}
      {f : Fault} : o.current? peer = some (i, c) → c.queue.push (.ofBytes payload) = .refused f →
      Step (.refused (Outbound.sendFault peer f)) ⟨o, none⟩ ⟨o, none⟩
  /-- A writer sends a payload on, whatever a call is at. -/
  | write {o : Outbound} {toOpen : Option (List (PeerId × Endpoint))} {i : Nat} {c c' : Connection} :
      o.connections[i]? = some c → c.writeNext = some c' →
      Step (.wrote i) ⟨o, toOpen⟩ ⟨o.setConnection i c', toOpen⟩
  | giveUp {o : Outbound} {toOpen : Option (List (PeerId × Endpoint))} {i : Nat} {c : Connection}
      {taken : Bytes} {f : Fault} : o.connections[i]? = some c → c.ended = false →
      Step (.gaveUp i f) ⟨o, toOpen⟩ ⟨o.giveUp i taken c f, toOpen⟩
  | finalize {o : Outbound} : Step (.finalized o.finalFault) ⟨o, none⟩ ⟨o.finalize, none⟩

end Outgoing

variable {o o' : Outbound} {c c' : Connection} {i : Nat} {peer q : PeerId} {f : Fault}
variable {endpoint : Endpoint} {payload : Bytes} {network : Network}

namespace Connection

theorem close_close (c : Connection) : c.close.close = c.close := by
  simp [close, flush, Queue.close, Queue.drained, Queue.payloads, Frame.encodeAll]

/-- Nothing is written when nothing is queued. -/
theorem flush_of_empty (counted : c.queue.Accounted) (empty : c.queue.items = []) : c.flush = c := by
  obtain ⟨endpoint, ⟨capacity, items, used, closed⟩, written, ended⟩ := c
  obtain rfl : items = [] := empty
  obtain rfl : used = 0 := counted.used_eq
  simp [flush, Queue.drained, Queue.payloads, Frame.encodeAll]

theorem writeNext_eq_some_iff : c.writeNext = some c' ↔ ∃ m q, c.queue.takeFirst = some (m, q) ∧
    c' = { c with queue := q, written := c.written ++ Frame.encode m.payload } := by
  rw [writeNext]
  cases c.queue.takeFirst with
  | none => simp
  | some taken =>
    obtain ⟨m, q⟩ := taken
    simp [eq_comm]

/-- What is written after the oldest payload is what would have been written after all. -/
theorem flush_of_writeNext (writes : c.writeNext = some c') : c'.flush = c.flush := by
  obtain ⟨m, q, taken, rfl⟩ := writeNext_eq_some_iff.1 writes
  obtain ⟨front, rest⟩ := Queue.takeFirst_eq_some_iff.1 taken
  have drained : q.drained = c.queue.drained := by rw [rest]; rfl
  simp [flush, drained, Queue.payloads, front, Frame.encodeAll]

end Connection

namespace Outbound

theorem setConnection_getElem? (found : o.connections[i]? = some c) :
    (o.setConnection i c').connections[i]? = some c' := by
  obtain ⟨inside, -⟩ := List.getElem?_eq_some_iff.1 found
  rw [setConnection, List.getElem?_set_self inside]

theorem setConnection_self (found : o.connections[i]? = some c) : o.setConnection i c = o := by
  obtain ⟨inside, rfl⟩ := List.getElem?_eq_some_iff.1 found
  rw [setConnection, List.set_getElem_self]

theorem setConnection_setConnection (o : Outbound) (i : Nat) (c c' : Connection) :
    (o.setConnection i c).setConnection i c' = o.setConnection i c' := by
  rw [setConnection, setConnection, List.set_set, setConnection]

/-- Closing touches those connections that lead to a receiver. -/
theorem closeLinks_getElem? (o : Outbound) (i : Nat) : o.closeLinks.connections[i]? =
    o.connections[i]?.map fun c => if i ∈ o.links.map Prod.snd then c.close else c := by
  rw [closeLinks]
  simp only
  generalize o.connections = cs
  induction o.links generalizing cs with
  | nil => simp
  | cons link links ih =>
    rw [List.foldl_cons, ih, List.getElem?_modify, Option.map_eq_map, Option.map_map]
    congr 1
    funext c
    by_cases own : link.2 = i
    · by_cases later : i ∈ links.map Prod.snd <;> simp [own, later, Connection.close_close]
    · by_cases later : i ∈ links.map Prod.snd <;> simp [own, Ne.symm own, later]

theorem closeLinks_length (o : Outbound) : o.closeLinks.connections.length = o.connections.length := by
  rw [closeLinks]
  simp only
  generalize o.connections = cs
  induction o.links generalizing cs with
  | nil => rfl
  | cons link links ih => rw [List.foldl_cons, ih, List.length_modify]

theorem openLink_ok (opens : openLink network peer endpoint o = .ok o') : o' = { o with
    connections := o.connections ++ [.start endpoint o.sender o.options.queueCapacity]
    links := o.links.insert peer o.connections.length } := by
  obtain ⟨address, -, opens⟩ := bind_ok_iff.1 opens
  split at opens
  · cases opens
  · cases opens
  · exact (Except.ok.inj opens).symm

theorem register_outcome (o : Outbound) (address : String) (peer : PeerId) :
    (register address peer).outcome o =
      if !o.links.isEmpty then (.error .lateReceiver, o)
      else
        match Endpoint.parse address with
        | .error f => (.error f, o)
        | .ok endpoint =>
          let next := { o with registered := o.registered.insert peer endpoint }
          if (o.registered.find? peer).isSome then (.error (.repeatedReceiver peer.toInt), next)
          else (.ok (), next) := by
  rw [register, LinkAction.outcome_bind, LinkAction.outcome_get]
  by_cases linked : !o.links.isEmpty
  · simp only [linked, if_true]
    rfl
  · simp only [linked]
    cases Endpoint.parse address with
    | error f => rfl
    | ok endpoint =>
      by_cases known : (o.registered.find? peer).isSome
      · simp only [known, if_true]
        rfl
      · simp only [known]
        rfl

theorem openAll_cons (network : PeerId → Network) (peer : PeerId) (endpoint : Endpoint)
    (rest : List (PeerId × Endpoint)) (o : Outbound) :
    (openAll network ((peer, endpoint) :: rest)).outcome o =
      match openLink (network peer) peer endpoint o with
      | .ok next => (openAll network rest).outcome next
      | .error f => (.error f, o.closeLinks) := by
  rw [openAll, LinkAction.outcome_bind, LinkAction.outcome_get]
  cases opens : openLink (network peer) peer endpoint o with
  | ok next =>
    simp only [opens]
    rfl
  | error f =>
    simp only [opens]
    rfl

theorem connectOver_outcome (network : PeerId → Network) (o : Outbound) :
    (connectOver network).outcome o =
      if o.registered.isEmpty then (.error .noReceivers, o)
      else (openAll network o.registered).outcome o := by
  rw [connectOver, LinkAction.outcome_bind, LinkAction.outcome_get]
  by_cases none : o.registered.isEmpty
  · simp only [none, if_true]
    rfl
  · simp only [none]
    rfl

theorem send_outcome (o : Outbound) (peer : PeerId) (payload : Bytes) :
    (send peer payload).outcome o =
      match o.current? peer with
      | none => (.error (.receiverMissing peer.toInt), o)
      | some (i, c) =>
        match c.queue.push (.ofBytes payload) with
        | .accepted q => (.ok (), o.setConnection i { c with queue := q })
        | .refused f => (.error (sendFault peer f), o)
        | .waits =>
          match c.flush.queue.push (.ofBytes payload) with
          | .accepted q => (.ok (), o.setConnection i { c.flush with queue := q })
          | _ => (.error (.receiverClosed peer.toInt), o) := by
  rw [send, LinkAction.outcome_bind, LinkAction.outcome_get]
  cases current : o.current? peer with
  | none => simp only [current]; rfl
  | some link =>
    obtain ⟨i, c⟩ := link
    simp only [current]
    cases c.queue.push (.ofBytes payload) with
    | accepted q => rfl
    | refused f => cases f <;> rfl
    | waits => cases c.flush.queue.push (.ofBytes payload) <;> rfl

end Outbound

namespace Outgoing

open PeerTable (Ascending)

variable {s t u : Outgoing} {e : Event} {es : List Event} {toOpen : Option (List (PeerId × Endpoint))}

/-- Both tables are in order, and every queue counts its bytes right. -/
structure Tidy (o : Outbound) : Prop where
  registered : Ascending o.registered
  links : Ascending o.links
  accounted : ∀ c ∈ o.connections, c.queue.Accounted

theorem tidy_start (sender : PeerId) (options : LinkOptions) : Tidy (.start sender options) :=
  ⟨.nil, .nil, nofun⟩

theorem Tidy.setConnection (h : Tidy o) (counted : c.queue.Accounted) :
    Tidy (o.setConnection i c) where
  registered := h.registered
  links := h.links
  accounted c' member := by
    rcases List.mem_or_eq_of_mem_set member with old | rfl
    · exact h.accounted c' old
    · exact counted

theorem Tidy.closeLinks (h : Tidy o) : Tidy o.closeLinks where
  registered := h.registered
  links := .nil
  accounted c member := by
    obtain ⟨i, found⟩ := List.getElem?_of_mem member
    rw [Outbound.closeLinks_getElem?] at found
    obtain ⟨old, at', rfl⟩ := Option.map_eq_some_iff.1 found
    split
    · exact ⟨rfl, Nat.zero_le _⟩
    · exact h.accounted old (List.mem_of_getElem? at')

theorem Tidy.openLink (h : Tidy o) (opens : Outbound.openLink network peer endpoint o = .ok o') :
    Tidy o' := by
  rw [Outbound.openLink_ok opens]
  refine ⟨h.registered, h.links.insert, fun c member => ?_⟩
  rcases List.mem_append.1 member with old | new
  · exact h.accounted c old
  · rw [List.mem_singleton.1 new]
    exact Queue.accounted_empty _

/-- Every link is one of the connections. -/
def Bounded (o : Outbound) : Prop := ∀ q i, o.links.find? q = some i → i < o.connections.length

theorem Bounded.openLink (h : Bounded o)
    (opens : Outbound.openLink network peer endpoint o = .ok o') : Bounded o' := by
  rw [Outbound.openLink_ok opens]
  intro q i leads
  rw [PeerTable.find?_insert] at leads
  rw [List.length_append, List.length_singleton]
  split at leads
  · cases leads
    exact Nat.lt_succ_self _
  · exact Nat.lt_succ_of_lt (h q i leads)

/-- A registration touches nothing but the table of receivers. One that is refused still enters the
address if the receiver is known already. -/
theorem register_cases {result : Except Fault Unit} {address : String}
    (comes : (Outbound.register address peer).outcome o = (result, o')) :
    o' = o ∧ (∃ f, result = .error f ∧ (o.links ≠ [] ∨ Endpoint.parse address = .error f)) ∨
    ∃ endpoint, o.links = [] ∧ Endpoint.parse address = .ok endpoint ∧
      o' = { o with registered := o.registered.insert peer endpoint } ∧
      (result = .ok () ∧ o.registered.find? peer = none ∨
        result = .error (.repeatedReceiver peer.toInt) ∧ ∃ old, o.registered.find? peer = some old) := by
  rw [Outbound.register_outcome] at comes
  by_cases linked : !o.links.isEmpty
  · rw [if_pos linked] at comes
    cases comes
    exact .inl ⟨rfl, _, rfl, .inl (by simpa using linked)⟩
  rw [if_neg linked] at comes
  have unlinked : o.links = [] := by simpa using linked
  cases parsed : Endpoint.parse address with
  | error f =>
    rw [parsed] at comes
    cases comes
    exact .inl ⟨rfl, _, rfl, .inr rfl⟩
  | ok endpoint =>
    simp only [parsed] at comes
    refine .inr ⟨endpoint, unlinked, rfl, ?_⟩
    cases known : o.registered.find? peer with
    | none =>
      rw [known, Option.isSome_none, if_neg Bool.false_ne_true] at comes
      cases comes
      exact ⟨rfl, .inl ⟨rfl, rfl⟩⟩
    | some old =>
      rw [known, Option.isSome_some, if_pos rfl] at comes
      cases comes
      exact ⟨rfl, .inr ⟨rfl, old, rfl⟩⟩

theorem Tidy.register {result : Except Fault Unit} {address : String} (h : Tidy o)
    (comes : (Outbound.register address peer).outcome o = (result, o')) : Tidy o' := by
  obtain ⟨rfl, -⟩ | ⟨endpoint, -, -, rfl, -⟩ := register_cases comes
  · exact h
  · exact ⟨h.registered.insert, h.links, h.accounted⟩

theorem Tidy.writeNext (h : Tidy o) (found : o.connections[i]? = some c)
    (writes : c.writeNext = some c') : Tidy (o.setConnection i c') := by
  obtain ⟨m, q, taken, rfl⟩ := Connection.writeNext_eq_some_iff.1 writes
  exact h.setConnection ((h.accounted c (List.mem_of_getElem? found)).takeFirst taken)

theorem current?_eq_some_iff : o.current? peer = some (i, c) ↔
    o.links.find? peer = some i ∧ o.connections[i]? = some c := by
  rw [Outbound.current?]
  cases o.links.find? peer with
  | none => simp
  | some j =>
    cases found : o.connections[j]? with
    | none =>
      simp only [Option.bind_eq_bind, Option.bind_some, found, Option.bind_none, Option.some.injEq]
      exact iff_of_false nofun fun ⟨same, at'⟩ => by simp [← same, found] at at'
    | some d =>
      simp only [Option.bind_eq_bind, Option.bind_some, found, Option.some.injEq]
      constructor
      · rintro ⟨⟩
        exact ⟨rfl, found⟩
      · rintro ⟨rfl, at'⟩
        rw [found] at at'
        cases at'
        rfl

theorem Tidy.step (h : Tidy s.outbound) (step : Step e s t) : Tidy t.outbound := by
  cases step with
  | register registers => exact h.register registers
  | registerRefused refused => exact h.register refused
  | noReceivers | connect | connected | missing | sendRefused => exact h
  | openNext opens => exact h.openLink opens
  | openRefused => exact h.closeLinks
  | send current pushed =>
    have member := List.mem_of_getElem? (current?_eq_some_iff.1 current).2
    exact h.setConnection ((h.accounted _ member).push pushed)
  | write found writes => exact h.writeNext found writes
  | @giveUp o toOpen i c taken f =>
    have counted : Tidy (o.setConnection i (c.abandon taken)) := h.setConnection ⟨rfl, Nat.zero_le _⟩
    exact ⟨counted.registered, counted.links, counted.accounted⟩
  | finalize => exact ⟨.nil, h.closeLinks.links, h.closeLinks.accounted⟩

inductive Call where
  | register (address : String) (peer : PeerId)
  /-- The network may change from one link to the next. -/
  | connect (network : PeerId → Network)
  | send (peer : PeerId) (payload : Bytes)
  | finalize

def Call.apply (o : Outbound) : Call → Outbound
  | .register address peer => ((Outbound.register address peer).outcome o).2
  | .connect network => ((Outbound.connectOver network).outcome o).2
  | .send peer payload => ((Outbound.send peer payload).outcome o).2
  | .finalize => o.finalize

/-- Steps in which no writer gives up. -/
def Leads (s t : Outgoing) : Prop := LeadsBy Step (fun e => ∀ i f, e ≠ .gaveUp i f) s t

theorem Step.leads (step : Step e s t) (getsOn : ∀ i f, e ≠ .gaveUp i f) : Leads s t :=
  .one step getsOn

theorem leads_openAll (network : PeerId → Network) (targets : List (PeerId × Endpoint)) (o : Outbound) :
    Leads ⟨o, some targets⟩ ⟨((Outbound.openAll network targets).outcome o).2, none⟩ := by
  induction targets generalizing o with
  | nil => exact Step.connected.leads nofun
  | cons target rest ih =>
    obtain ⟨peer, endpoint⟩ := target
    rw [Outbound.openAll_cons]
    cases opens : Outbound.openLink (network peer) peer endpoint o with
    | ok next => exact ((Step.openNext opens).leads nofun).trans (ih next)
    | error f => exact (Step.openRefused opens).leads nofun

/-- The writer takes one payload after the other, each time one less in the queue. -/
theorem leads_flush {o : Outbound} {c : Connection} (found : o.connections[i]? = some c)
    (counted : c.queue.Accounted) :
    Leads ⟨o, toOpen⟩ ⟨o.setConnection i c.flush, toOpen⟩ := by
  cases taken : c.queue.takeFirst with
  | none =>
    have empty : c.queue.items = [] := Queue.takeFirst_eq_none_iff.1 taken
    rw [Connection.flush_of_empty counted empty, Outbound.setConnection_self found]
    exact .refl _
  | some first =>
    obtain ⟨m, q⟩ := first
    let next : Connection := { c with queue := q, written := c.written ++ Frame.encode m.payload }
    have writes : c.writeNext = some next :=
      Connection.writeNext_eq_some_iff.2 ⟨m, q, taken, rfl⟩
    have shorter : q.items.length < c.queue.items.length := by
      simp [(Queue.takeFirst_eq_some_iff.1 taken).1]
    have found' : (o.setConnection i next).connections[i]? = some next :=
      Outbound.setConnection_getElem? found
    have later := leads_flush found' (counted.takeFirst taken)
    rw [Outbound.setConnection_setConnection, Connection.flush_of_writeNext writes] at later
    exact ((Step.write found writes).leads nofun).trans later
termination_by c.queue.items.length

theorem leads_send (peer : PeerId) (payload : Bytes) (h : Tidy o) :
    Leads ⟨o, none⟩ ⟨((Outbound.send peer payload).outcome o).2, none⟩ := by
  rw [Outbound.send_outcome]
  cases current : o.current? peer with
  | none => exact (Step.missing current).leads nofun
  | some link =>
    obtain ⟨i, c⟩ := link
    obtain ⟨leads, found⟩ := current?_eq_some_iff.1 current
    cases pushed : c.queue.push (.ofBytes payload) with
    | accepted q =>
      simp only [pushed]
      exact (Step.send current pushed).leads nofun
    | refused f =>
      simp only [pushed]
      exact (Step.sendRefused current pushed).leads nofun
    | waits =>
      obtain ⟨q, again⟩ := Queue.push_drained_of_waits pushed
      have again : c.flush.queue.push (.ofBytes payload) = .accepted q := again
      simp only [pushed, again]
      have flushed : Leads ⟨o, none⟩ ⟨o.setConnection i c.flush, none⟩ :=
        leads_flush found (h.accounted c (List.mem_of_getElem? found))
      have current' : (o.setConnection i c.flush).current? peer = some (i, c.flush) :=
        current?_eq_some_iff.2 ⟨leads, Outbound.setConnection_getElem? found⟩
      have sent := (Step.send current' again).leads nofun
      rw [Outbound.setConnection_setConnection] at sent
      exact flushed.trans sent

/-- Every call is made of steps, in which no writer gives up. -/
theorem leads_call (call : Call) (h : Tidy o) : Leads ⟨o, none⟩ ⟨call.apply o, none⟩ := by
  cases call with
  | register address peer =>
    cases comes : (Outbound.register address peer).outcome o with
    | mk result next =>
      rw [Call.apply, comes]
      cases result with
      | ok => exact (Step.register comes).leads nofun
      | error f => exact (Step.registerRefused comes).leads nofun
  | connect network =>
    rw [Call.apply, Outbound.connectOver_outcome]
    by_cases none : o.registered.isEmpty
    · rw [if_pos none]
      exact (Step.noReceivers (List.isEmpty_iff.1 none)).leads nofun
    · rw [if_neg none]
      have some' : o.registered ≠ [] := fun empty => none (List.isEmpty_iff.2 empty)
      exact ((Step.connect some').leads nofun).trans (leads_openAll network o.registered o)
  | send peer payload => exact leads_send peer payload h
  | finalize => exact Step.finalize.leads nofun

theorem Tidy.leads (h : Tidy s.outbound) (leads : Leads s t) : Tidy t.outbound := by
  obtain ⟨es, -, steps⟩ := leads
  exact steps.preserves (P := fun s => Tidy s.outbound) h fun _ _ _ before step => before.step step

theorem leads_calls (calls : List Call) (h : Tidy o) :
    Leads ⟨o, none⟩ ⟨calls.foldl Call.apply o, none⟩ := by
  induction calls generalizing o with
  | nil => exact .refl _
  | cons call calls ih =>
    have now := leads_call call h
    exact now.trans (ih (h.leads now))

end Outgoing

end GraphRelay
