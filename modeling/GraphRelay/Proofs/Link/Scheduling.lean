import GraphRelay.Proofs.Link.Owing

/-!
# Calls in every order

When readers get on, and so which sender a call finds something of, is up to the machine. A schedule
decides it: it says what each call comes to, which is something that steps of the readers and of the call
lead to. As long as the system lets the readers read on, every schedule delivers what the links owe.
-/
namespace GraphRelay

open Inbound (Owing)

namespace Reception

variable {w v : Waiting} {r r' : Inbound} {s t : Reception} {e : Event} {call : Call} {i : Nat}
variable {link link' : InboundLink} {peer sender : PeerId} {payload : Bytes} {fault : Fault}

namespace Event

/-- Whether no stream failed in the step. -/
def isUnbroken : Event → Bool
  | ended _ failure => failure.isNone
  | arrived .. | returned .. | refused .. | silent => true

end Event

/-- Steps in which no call comes to its end and no stream fails. -/
def Proceeds (s t : Reception) : Prop :=
  LeadsBy Step (fun e => e.isAnswer = false ∧ e.isUnbroken = true) s t

/-- A call comes to its end so, and no stream fails before. -/
def Settles (s : Reception) (answer : Event) (t : Reception) : Prop :=
  ∃ u, Proceeds s u ∧ Step answer u t

theorem Step.proceeds (step : Step e s t) (quiet : e.isAnswer = false)
    (unbroken : e.isUnbroken = true) : Proceeds s t := .one step ⟨quiet, unbroken⟩

theorem Step.settles (step : Step e s t) : Settles s e t := ⟨s, .refl s, step⟩

theorem Settles.after {u : Reception} (before : Proceeds s t) (settles : Settles t e u) :
    Settles s e u := by
  obtain ⟨x, later, step⟩ := settles
  exact ⟨x, before.trans later, step⟩

/-- What is owed, and what the call knows of the links. -/
def Stands (w : Waiting) (s : Reception) : Prop := Owing w s.receiver ∧ s.call.Knows s.receiver

theorem Stands.proceed (h : Stands w s) (step : Step e s t) (quiet : e.isAnswer = false)
    (unbroken : e.isUnbroken = true) : Stands w t := by
  refine ⟨?_, step.knows h.2⟩
  cases step with
  | arrive found moved | finish found moved => exact h.1.advance found moved
  | cut => cases unbroken
  | take | takeFrom | noSenders | allClosed | missing | failed | endFrom => cases quiet
  | look | again => exact h.1.takeTurn
  | miss | pass | passOver | expect => exact h.1

theorem Stands.proceeds (h : Stands w s) (proceeds : Proceeds s t) : Stands w t :=
  proceeds.preserves h fun _ _ _ kind before step => before.proceed step kind.1 kind.2

theorem Stands.returned (h : Stands w s) (step : Step (.returned sender payload) s t) :
    ∃ v, Dequeued sender [payload] w v ∧ Owing v t.receiver := by
  cases step with
  | take _ found taken => exact h.1.take found taken
  | takeFrom found popped => exact h.1.take found (Queue.pop_eq_message_iff.1 popped)

theorem Stands.eq_nil_of_isFinished (h : Stands w s) (found : s.receiver.links[i]? = some link)
    (finished : link.queue.isFinished = true) : w link.sender = [] ∧ link.failure = none := by
  have owes := h.1.owes link (List.mem_of_getElem? found)
  exact ⟨owes.eq_nil_of_isFinished finished, owes.failure_of_isFinished finished⟩

/-- A call for any payload is refused only if nothing is owed. -/
theorem Stands.refused (h : Stands w s) (step : Step (.refused none fault) s t) (peer : PeerId) :
    w peer = [] := by
  by_contra busy
  obtain ⟨link, linked, rfl⟩ := List.mem_map.1 (h.1.mem_senders busy)
  cases step with
  | noSenders none => simp [none] at linked
  | @failed r first seen spent link' found finished failed =>
    have found : r.links[(first + seen) % r.links.length]? = some link' := found
    have unfailed := (h.eq_nil_of_isFinished found finished).2
    simp [unfailed] at failed
  | @allClosed r first =>
    obtain ⟨i, at'⟩ := List.getElem?_of_mem linked
    obtain ⟨inside, -⟩ := List.getElem?_eq_some_iff.1 at'
    obtain ⟨seen, before, around⟩ := exists_seen first inside
    have knows : Passed r first r.links.length r.links.length := h.2.2.2
    obtain ⟨finished, -⟩ := knows.2 rfl seen before link (by rw [Inbound.linkAt?, around, at'])
    exact busy (h.eq_nil_of_isFinished at' finished).1

/-- A call for one sender is refused only if nothing of it is owed. -/
theorem Stands.refusedFrom (h : Stands w s) (step : Step (.refused (some peer) fault) s t) :
    w peer = [] := by
  cases step with
  | missing absent => exact h.1.others peer absent
  | @endFrom r i link found ended =>
    have finished : link.queue.isFinished = true := by
      simpa [Queue.isFinished] using Queue.pop_eq_ended_iff.1 ended
    exact (h.eq_nil_of_isFinished found finished).1

theorem proceeds_await {frames : List Bytes} (found : r.links[i]? = some link)
    (owes : link.Owes r.options.frameLimit frames none) :
    Proceeds ⟨r, call⟩ ⟨r.setLink i (link.await r.options.frameLimit), call⟩ := by
  rw [InboundLink.await]
  split
  · cases moved : link.advance r.options.frameLimit with
    | none =>
      rw [Option.getD_none, setLink_self found]
      exact .refl _
    | some link' =>
      obtain ⟨-, ⟨-, rfl⟩ | ⟨payload, reads, q, -, pushed, rfl, -⟩⟩ := owes.advance_eq_some moved
      · exact (Step.finish found moved).proceeds rfl rfl
      · exact (Step.arrive found moved pushed).proceeds rfl rfl
  · rw [setLink_self found]
    exact .refl _

/-- The reader of a link that owes something can have it queued. -/
theorem exists_queued (owing : Owing w r) (found : r.links[i]? = some link)
    (busy : w link.sender ≠ []) (call : Call) : ∃ u link' m q,
      Proceeds ⟨r, call⟩ ⟨u, call⟩ ∧ Owing w u ∧ u.senders = r.senders ∧
      u.links[i]? = some link' ∧ link'.sender = link.sender ∧
      link'.queue.takeFirst = some (m, q) := by
  have owes := owing.owes link (List.mem_of_getElem? found)
  obtain ⟨m, q, taken⟩ := owes.await.exists_taken (ready_await owes) busy
  refine ⟨_, _, m, q, proceeds_await found owes,
    owing.setLink found await_sender (.refl _ w) owes.await,
    Inbound.senders_setLink found await_sender, ?_, await_sender, taken⟩
  simp [Inbound.setLink, (List.getElem?_eq_some_iff.1 found).1]

/-- A call that looks around comes to a link that has something queued, or to another one before. -/
theorem looking_settles {first target seen spent : Nat} {m : Message} {q : Queue}
    (owing : Owing w r) (inside : target < r.links.length) (found : r.linkAt? first target = some link)
    (queued : link.queue.takeFirst = some (m, q)) (behind : seen ≤ target) :
    ∃ sender payload r', Settles ⟨r, .looking first seen spent⟩ (.returned sender payload)
      ⟨r', .idle⟩ := by
  obtain ⟨next, member, at'⟩ := exists_linkAt (Nat.lt_of_le_of_lt behind inside) first
  have before : seen < r.links.length := Nat.lt_of_le_of_lt behind inside
  cases taken : next.queue.takeFirst with
  | some _ => exact ⟨_, _, _, (Step.take before at' taken).settles⟩
  | none =>
    have ahead : seen < target := by
      refine Nat.lt_of_le_of_ne behind fun same => ?_
      rw [same, found, Option.some.injEq] at at'
      rw [at', taken] at queued
      cases queued
    have missed : Proceeds ⟨r, .looking first seen spent⟩ ⟨r, .passing first seen spent⟩ :=
      (Step.miss before at' taken).proceeds rfl rfl
    have passed : ∃ more, Proceeds ⟨r, .passing first seen spent⟩
        ⟨r, .looking first (seen + 1) (spent + more)⟩ := by
      cases finished : next.queue.isFinished with
      | false => exact ⟨0, (Step.pass at' finished).proceeds rfl rfl⟩
      | true =>
        have unfailed := (owing.owes next member).failure_of_isFinished finished
        exact ⟨1, (Step.passOver at' finished unfailed).proceeds rfl rfl⟩
    obtain ⟨more, passed⟩ := passed
    obtain ⟨sender, payload, r', later⟩ := looking_settles owing inside found queued ahead
    exact ⟨sender, payload, r', later.after (missed.trans passed)⟩
termination_by target - seen

/-- Where something is owed a call can come to a payload. -/
theorem exists_receive (owing : Owing w r) (busy : w peer ≠ []) :
    ∃ sender payload r', Settles ⟨r, .idle⟩ (.returned sender payload) ⟨r', .idle⟩ := by
  obtain ⟨link, linked, rfl⟩ := List.mem_map.1 (owing.mem_senders busy)
  obtain ⟨i, found⟩ := List.getElem?_of_mem linked
  obtain ⟨u, link', m, q, queued, kept, -, found, -, taken⟩ := exists_queued owing found busy .idle
  obtain ⟨inside, -⟩ := List.getElem?_eq_some_iff.1 found
  obtain ⟨target, before, around⟩ := exists_seen u.nextFirst inside
  have at' : u.takeTurn.linkAt? u.nextFirst target = some link' := by
    rw [← found, ← around]
    rfl
  have looks := (Step.look (r := u) (List.ne_nil_of_mem (List.mem_of_getElem? found))).proceeds rfl rfl
  obtain ⟨sender, payload, r', settles⟩ :=
    looking_settles kept.takeTurn before at' taken (Nat.zero_le target)
  exact ⟨sender, payload, r', settles.after (queued.trans looks)⟩

/-- Where a sender is owed something of a call for it can come to a payload. -/
theorem exists_receiveFrom (owing : Owing w r) (busy : w peer ≠ []) :
    ∃ payload r', Settles ⟨r, .idle⟩ (.returned peer payload) ⟨r', .idle⟩ := by
  obtain ⟨i, link, position, found, rfl⟩ := Inbound.exists_position (owing.mem_senders busy)
  obtain ⟨u, link', m, q, queued, -, -, at', same, taken⟩ :=
    exists_queued owing found busy (.expecting i)
  have waits := (Step.expect position).proceeds rfl rfl
  have takes := (Step.takeFrom at' (Queue.pop_eq_message_iff.2 taken)).settles
  rw [same] at takes
  exact ⟨m.payload, _, takes.after (waits.trans queued)⟩

end Reception

open Reception

/-- A call for any payload can come to this and leave the receiver so. -/
def CanReceive (r : Inbound) (outcome : Except Fault (PeerId × Bytes) × Inbound) : Prop :=
  Settles ⟨r, .idle⟩ (answer outcome.1) ⟨outcome.2, .idle⟩

/-- A call for one sender can come to this and leave the receiver so. -/
def CanReceiveFrom (peer : PeerId) (r : Inbound) (outcome : Except Fault Bytes × Inbound) : Prop :=
  Settles ⟨r, .idle⟩ (answerFrom peer outcome.1) ⟨outcome.2, .idle⟩

/-- What every call comes to, by its number and the receiver it is made of: something that the readers
and the call can come to together, if there is anything. -/
structure Schedule where
  receive : Nat → Inbound → Except Fault (PeerId × Bytes) × Inbound
  receiveFrom : Nat → PeerId → Inbound → Except Fault Bytes × Inbound
  canReceive {k : Nat} {r : Inbound} :
    (∃ outcome, CanReceive r outcome) → CanReceive r (receive k r)
  canReceiveFrom {k : Nat} {peer : PeerId} {r : Inbound} :
    (∃ outcome, CanReceiveFrom peer r outcome) → CanReceiveFrom peer r (receiveFrom k peer r)

theorem exists_possible {α : Type} [Nonempty α] (possible : α → Prop) :
    ∃ a, (∃ b, possible b) → possible a := by
  by_cases any : ∃ b, possible b
  · obtain ⟨b, hb⟩ := any
    exact ⟨b, fun _ => hb⟩
  · exact ⟨Classical.arbitrary α, fun h => absurd h any⟩

/-- Whatever a call can come to, some schedule has it come to. -/
theorem Schedule.exists_of_canReceive {r : Inbound}
    {outcome : Except Fault (PeerId × Bytes) × Inbound} (possible : CanReceive r outcome) (k : Nat) :
    ∃ schedule : Schedule, schedule.receive k r = outcome := by
  have : Nonempty Inbound := ⟨r⟩
  have : Nonempty (Except Fault Bytes) := ⟨.error .noSenders⟩
  have : Nonempty (Except Fault (PeerId × Bytes)) := ⟨.error .noSenders⟩
  have heard (j : Nat) (u : Inbound) : ∃ end' : Except Fault (PeerId × Bytes) × Inbound,
      (j = k ∧ u = r → end' = outcome) ∧ ((∃ o, CanReceive u o) → CanReceive u end') := by
    by_cases here : j = k ∧ u = r
    · obtain ⟨rfl, rfl⟩ := here
      exact ⟨outcome, fun _ => rfl, fun _ => possible⟩
    · obtain ⟨end', h⟩ := exists_possible (CanReceive u)
      exact ⟨end', fun at' => absurd at' here, h⟩
  choose hear heard using heard
  choose fetch fetched using fun peer u => exists_possible (CanReceiveFrom peer u)
  exact ⟨⟨hear, fun _ => fetch, (heard _ _).2, fetched _ _⟩, (heard k r).1 ⟨rfl, rfl⟩⟩

/-- A receiver whose calls come to what a schedule says. -/
structure Scheduled where
  schedule : Schedule
  /-- How many calls were made before. -/
  calls : Nat
  receiver : Inbound

namespace Scheduled

/-- The state after a call. -/
def next (s : Scheduled) (r : Inbound) : Scheduled := { s with calls := s.calls + 1, receiver := r }

def receive : LinkAction Scheduled (PeerId × Bytes) :=
  ExceptT.mk fun s =>
    let outcome := s.schedule.receive s.calls s.receiver
    (outcome.1, s.next outcome.2)

def receiveFrom (peer : PeerId) : LinkAction Scheduled Bytes :=
  ExceptT.mk fun s =>
    let outcome := s.schedule.receiveFrom s.calls peer s.receiver
    (outcome.1, s.next outcome.2)

instance : Inbox Scheduled := ⟨receive, receiveFrom⟩

/-- Whatever the schedule, what the links owe is delivered. -/
theorem delivers_scheduled : Delivers fun w (s : Scheduled) => Owing w s.receiver where
  receive := by
    intro w s peer owing busy
    obtain ⟨sender, payload, r', possible⟩ := exists_receive owing busy
    obtain ⟨u, proceeds, step⟩ :=
      s.schedule.canReceive (k := s.calls) ⟨(.ok (sender, payload), r'), possible⟩
    have stands : Stands w u := Stands.proceeds (s := ⟨s.receiver, .idle⟩) ⟨owing, trivial⟩ proceeds
    cases result : (s.schedule.receive s.calls s.receiver).1 with
    | error f =>
      rw [result] at step
      exact absurd (stands.refused step peer) busy
    | ok message =>
      rw [result] at step
      obtain ⟨v, dequeued, kept⟩ := stands.returned step
      exact ⟨message.1, message.2, v, _, congrArg (·, s.next _) result, dequeued, kept⟩
  receiveFrom := by
    intro w s peer owing busy
    obtain ⟨payload, r', possible⟩ := exists_receiveFrom owing busy
    obtain ⟨u, proceeds, step⟩ :=
      s.schedule.canReceiveFrom (k := s.calls) ⟨(.ok payload, r'), possible⟩
    have stands : Stands w u := Stands.proceeds (s := ⟨s.receiver, .idle⟩) ⟨owing, trivial⟩ proceeds
    cases result : (s.schedule.receiveFrom s.calls peer s.receiver).1 with
    | error f =>
      rw [result] at step
      exact absurd (stands.refusedFrom step) busy
    | ok payload =>
      rw [result] at step
      obtain ⟨v, dequeued, kept⟩ := stands.returned step
      exact ⟨payload, v, _, congrArg (·, s.next _) result, dequeued, kept⟩

end Scheduled

end GraphRelay
