import GraphRelay.Proofs.Link.Receiving
import Mathlib.Data.List.Rotate

/-!
# What calls return and why they are refused

Calls return what their links carry, link by link in order, and a refused call says how its links ended.
The calls that run, which let the readers get on before they look, take the same steps as those that
interleave with the readers.
-/
namespace GraphRelay

variable {limit : Nat} {link link' : InboundLink} {failure : Option Fault}
variable {r r' : Inbound} {first seen spent i n : Nat}

/-- What a call for one sender says when nothing comes any more. -/
def endFault (peer : PeerId) : Option Fault → Fault
  | some f => .senderFailed peer.toInt f.message
  | none => .senderClosed peer.toInt

theorem InboundLink.closedFault_eq (link : InboundLink) :
    link.closedFault = endFault link.sender link.failure := by
  rw [closedFault]
  cases link.failure <;> rfl

/-- Counting around from anywhere one comes to every position. -/
theorem exists_seen (first : Nat) (inside : i < n) : ∃ seen < n, (first + seen) % n = i := by
  have start := Nat.mod_lt first (Nat.zero_lt_of_lt inside)
  have split := Nat.div_add_mod first n
  rcases Nat.lt_or_ge i (first % n) with before | behind
  · refine ⟨i + n - first % n, by omega, ?_⟩
    have around : first + (i + n - first % n) = i + n * (first / n + 1) := by
      rw [Nat.mul_add]
      omega
    rw [around, Nat.add_mul_mod_self_left, Nat.mod_eq_of_lt inside]
  · refine ⟨i - first % n, by omega, ?_⟩
    have ahead : first + (i - first % n) = i + n * (first / n) := by omega
    rw [ahead, Nat.add_mul_mod_self_left, Nat.mod_eq_of_lt inside]

namespace Reception

variable {e : Event} {es : List Event} {s t u : Reception} {fault : Fault} {peer : PeerId}
variable {options : LinkOptions} {streams : List (PeerId × Frame.Reads)} {call : Call}

theorem Sound.through (h : Sound options streams es s) (found : s.receiver.links[i]? = some link)
    (finished : link.queue.isFinished = true) : ∃ stream ∈ streams, stream.1 = link.sender ∧
      Through options.frameLimit es stream link.failure := by
  obtain ⟨stream, own, served⟩ := h.served i link found
  exact ⟨stream, List.mem_of_getElem? own, served.sender_eq.symm, served.through finished⟩

theorem Sound.exists_link {stream : PeerId × Frame.Reads} (h : Sound options streams es s)
    (member : stream ∈ streams) : ∃ (i : Nat) (link : InboundLink),
      s.receiver.links[i]? = some link ∧ Served options.frameLimit es stream link := by
  obtain ⟨i, own⟩ := List.getElem?_of_mem member
  obtain ⟨inside, -⟩ := List.getElem?_eq_some_iff.1 own
  have found := List.getElem?_eq_getElem (h.length_eq ▸ inside)
  obtain ⟨stream', own', served⟩ := h.served i _ found
  obtain rfl := Option.some.inj (own.symm.trans own')
  exact ⟨i, _, found, served⟩

theorem Sound.senders_eq (h : Sound options streams es s) :
    s.receiver.senders = streams.map Prod.fst := by
  refine List.ext_getElem? fun i => ?_
  rw [Inbound.senders, List.getElem?_map, List.getElem?_map]
  cases found : s.receiver.links[i]? with
  | none =>
    have outside : streams.length ≤ i := h.length_eq ▸ List.getElem?_eq_none_iff.1 found
    rw [List.getElem?_eq_none outside]
    rfl
  | some link =>
    obtain ⟨stream, own, served⟩ := h.served i link found
    rw [own, Option.map_some, Option.map_some, served.sender_eq]

/-- A call that has gone round and found all links through has found each of them unfailed. -/
theorem Sound.all_through {first : Nat} (h : Sound options streams es s)
    (all : s.call = .looking first s.receiver.links.length s.receiver.links.length) :
    ∀ stream ∈ streams, Through options.frameLimit es stream none := by
  intro stream member
  obtain ⟨i, link, found, served⟩ := h.exists_link member
  obtain ⟨inside, -⟩ := List.getElem?_eq_some_iff.1 found
  obtain ⟨seen, before, at'⟩ := exists_seen first inside
  have knows : s.call.Knows s.receiver := h.knows
  rw [all] at knows
  obtain ⟨finished, unfailed⟩ := knows.2.2.2 rfl seen before link (by rw [Inbound.linkAt?, at', found])
  exact unfailed ▸ served.through finished

/-- Why a call for any payload is refused, and that it leaves everything where it is. -/
theorem Sound.refused (h : Sound options streams es s) (step : Step (.refused none fault) s t) :
    t.receiver = s.receiver ∧
    (streams = [] ∧ fault = .noSenders ∨
      streams ≠ [] ∧ fault = .allSendersClosed ∧ (∀ stream ∈ streams, .ended stream.1 none ∈ es ∧
        Frame.readAll options.frameLimit stream.2 = (returned stream.1 es, none)) ∨
      ∃ stream ∈ streams, ∃ why, fault = .senderFailed stream.1.toInt why.message ∧
        Through options.frameLimit es stream (some why)) := by
  cases step with
  | noSenders none =>
    have same := h.length_eq
    rw [none] at same
    exact ⟨rfl, .inl ⟨List.length_eq_zero_iff.1 same.symm, rfl⟩⟩
  | failed found finished failed =>
    refine ⟨rfl, .inr (.inr ?_)⟩
    obtain ⟨why, reason⟩ := Option.isSome_iff_exists.1 failed
    obtain ⟨stream, member, own, through⟩ := h.through found finished
    refine ⟨stream, member, why, ?_, reason ▸ through⟩
    rw [InboundLink.closedFault_eq, reason, own, endFault]
  | allClosed =>
    refine ⟨rfl, .inr (.inl ⟨fun none => h.knows.1 ?_, rfl, fun stream member => ?_⟩)⟩
    · exact List.length_eq_zero_iff.1 (by rw [h.length_eq, none, List.length_nil])
    · have through := h.all_through rfl stream member
      exact ⟨through.ended, Frame.yielded_none_iff.1 through.yielded⟩

theorem Sound.refusedFrom (h : Sound options streams es s)
    (step : Step (.refused (some peer) fault) s t) :
    t.receiver = s.receiver ∧
    (peer ∉ streams.map Prod.fst ∧ fault = .senderMissing peer.toInt ∨
      ∃ stream ∈ streams, stream.1 = peer ∧ ∃ failure, fault = endFault peer failure ∧
        Through options.frameLimit es stream failure) := by
  cases step with
  | missing unknown => exact ⟨rfl, .inl ⟨h.senders_eq ▸ unknown, rfl⟩⟩
  | @endFrom r i link found ended =>
    have finished : link.queue.isFinished = true := by
      simpa [Queue.isFinished] using Queue.pop_eq_ended_iff.1 ended
    obtain ⟨stream, member, own, through⟩ := h.through found finished
    exact ⟨rfl, .inr ⟨stream, member, own, link.failure, link.closedFault_eq, through⟩⟩

theorem Sound.ended_unique {stream : PeerId × Frame.Reads} (h : Sound options streams es s)
    (member : stream ∈ streams) {failure failure' : Option Fault}
    (one : .ended stream.1 failure ∈ es) (other : .ended stream.1 failure' ∈ es) :
    failure' = failure := by
  obtain ⟨i, link, -, served⟩ := h.exists_link member
  rw [← ((served.ended_iff _).1 one).2, ← ((served.ended_iff _).1 other).2]

namespace Event

/-- Whether a call came to its end in the step. -/
def isAnswer : Event → Bool
  | returned .. | refused .. => true
  | arrived .. | ended .. | silent => false

end Event

/-- Steps in which no call comes to its end. -/
def Leads (s t : Reception) : Prop := LeadsBy Step (fun e => e.isAnswer = false) s t

/-- The call that is made now ends so, once the readers have got on as far as need be. -/
def Answered (s : Reception) (answer : Event) (t : Reception) : Prop :=
  ∃ u, Leads s u ∧ Step answer u t

theorem Step.leads (step : Step e s t) (quiet : e.isAnswer = false) : Leads s t := .one step quiet

theorem Answered.after {answer : Event} (before : Leads s t) (then' : Answered t answer u) :
    Answered s answer u := by
  obtain ⟨v, later, step⟩ := then'
  exact ⟨v, before.trans later, step⟩

theorem Step.answered (step : Step e s t) : Answered s e t := ⟨s, .refl s, step⟩

theorem setLink_self (found : r.links[i]? = some link) : r.setLink i link = r := by
  obtain ⟨inside, rfl⟩ := List.getElem?_eq_some_iff.1 found
  rw [Inbound.setLink, List.set_getElem_self]

theorem setLink_setLink (r : Inbound) (i : Nat) (link link' : InboundLink) :
    (r.setLink i link).setLink i link' = r.setLink i link' := by
  rw [Inbound.setLink, Inbound.setLink, List.set_set, Inbound.setLink]

theorem leads_advance (found : r.links[i]? = some link)
    (moved : link.advance r.options.frameLimit = some link') :
    Leads ⟨r, call⟩ ⟨r.setLink i link', call⟩ := by
  rcases InboundLink.advance_cases moved with ⟨failure, rfl⟩ | ⟨payload, reads, q, pushed, rfl⟩
  · exact (Step.finish found moved).leads rfl
  · exact (Step.arrive found moved pushed).leads rfl

theorem leads_await (found : r.links[i]? = some link) :
    Leads ⟨r, call⟩ ⟨r.setLink i (link.await r.options.frameLimit), call⟩ := by
  rw [InboundLink.await]
  split
  · cases moved : link.advance r.options.frameLimit with
    | none =>
      rw [Option.getD_none, setLink_self found]
      exact .refl _
    | some link' => exact leads_advance found moved
  · rw [setLink_self found]
    exact .refl _

theorem leads_awaitAll (r : Inbound) (call : Call) : Leads ⟨r, call⟩ ⟨r.awaitAll, call⟩ := by
  have rest : ∀ before after : List InboundLink,
      Leads ⟨{ r with links := before ++ after }, call⟩
        ⟨{ r with links := before ++ after.map (InboundLink.await r.options.frameLimit) }, call⟩ := by
    intro before after
    induction after generalizing before with
    | nil => exact .refl _
    | cons link after ih =>
      have found : (before ++ link :: after)[before.length]? = some link := by simp
      have now : Leads ⟨{ r with links := before ++ link :: after }, call⟩ _ := leads_await found
      rw [Inbound.setLink, List.set_append_right _ _ (Nat.le_refl _), Nat.sub_self,
        List.set_cons_zero] at now
      have later := ih (before ++ [link.await r.options.frameLimit])
      simp only [List.append_assoc, List.singleton_append] at later
      exact now.trans later
  exact rest [] r.links

/-- There is something to take from the link, or nothing will come any more. -/
def Ready (link : InboundLink) : Prop := link.queue.takeFirst = none → link.queue.isFinished = true

/-- A reader whose queue is empty can always get on, unless it is through. -/
theorem ready_await {owed : List Bytes} (owes : link.Owes limit owed failure) :
    Ready (link.await limit) := by
  cases none : link.queue.items.isEmpty with
  | false =>
    rw [InboundLink.await, none, if_neg Bool.false_ne_true]
    intro empty
    rw [Queue.takeFirst_eq_none_iff.1 empty] at none
    cases none
  | true =>
    rw [InboundLink.await, none, if_pos rfl]
    have empty : link.queue.items = [] := List.isEmpty_iff.1 none
    cases finished : link.queue.isFinished with
    | true =>
      have closed : link.queue.closed = true := (Bool.and_eq_true_iff.1 finished).1
      rw [InboundLink.advance, if_pos closed]
      exact fun _ => finished
    | false =>
      obtain ⟨taken, link', step⟩ := owes.exists_step finished
      cases step with
      | take taken => simp [Queue.takeFirst_eq_none_iff.2 empty] at taken
      | advance moved =>
        rw [moved, Option.getD_some]
        obtain ⟨-, ⟨-, rfl⟩ | ⟨payload, reads, q, later, pushed, rfl, -⟩⟩ :=
          owes.advance_eq_some moved
        · intro still
          simp [InboundLink.finish, Queue.isFinished, Queue.close, empty]
        · obtain ⟨-, -, rfl⟩ := Queue.push_eq_accepted_iff.1 pushed
          intro still
          simp [Queue.takeFirst_eq_none_iff] at still

/-- The links with their positions, turned round so that the first to look at comes first. -/
theorem linksFrom_eq_rotate (start : first ≤ r.links.length) :
    r.linksFrom first = (r.links.zipIdx.map fun (link, i) => (i, link)).rotate first := by
  rw [List.rotate_eq_drop_append_take (by simpa using start), Inbound.linksFrom]

theorem linksFrom_length (start : first ≤ r.links.length) :
    (r.linksFrom first).length = r.links.length := by
  rw [linksFrom_eq_rotate start, List.length_rotate, List.length_map, List.length_zipIdx]

theorem linksFrom_getElem? (start : first ≤ r.links.length) (before : seen < r.links.length) :
    (r.linksFrom first)[seen]? =
      (r.linkAt? first seen).map fun link => ((first + seen) % r.links.length, link) := by
  rw [linksFrom_eq_rotate start, List.getElem?_rotate (by simpa using before)]
  simp only [List.getElem?_map, List.getElem?_zipIdx, List.length_map, List.length_zipIdx,
    Option.map_map, Nat.zero_add, Nat.add_comm seen first, Inbound.linkAt?]
  rfl

theorem exists_linkAt (before : seen < r.links.length) (first : Nat) :
    ∃ link ∈ r.links, r.linkAt? first seen = some link :=
  ⟨_, List.getElem_mem _,
    List.getElem?_eq_getElem (Nat.mod_lt (first + seen) (Nat.zero_lt_of_lt before))⟩

/-- What a look comes to that passes over the links before. -/
def Comes (s : Reception) (r : Inbound) : Inbound.Look → Prop
  | .message i payload link => Answered s (.returned link.sender payload) ⟨r.setLink i link, .idle⟩
  | .fault f => Answered s (.refused none f) ⟨r, .idle⟩
  | .waits => False

theorem Comes.after {look : Inbound.Look} (before : Leads s t) (later : Comes t r look) :
    Comes s r look := by
  cases look with
  | message | fault => exact Answered.after before later
  | waits => exact later

/-- Where every link is ready, one that has nothing is through, so the count keeps up with the look. -/
theorem look_comes {seen : Nat} (ready : ∀ link ∈ r.links, Ready link) (start : first ≤ r.links.length)
    (bound : seen ≤ r.links.length) :
    Comes ⟨r, .looking first seen seen⟩ r (Inbound.look ((r.linksFrom first).drop seen)) := by
  rcases Nat.eq_or_lt_of_le bound with rfl | before
  · rw [← linksFrom_length start, List.drop_length, linksFrom_length start]
    exact Step.allClosed.answered
  obtain ⟨link, member, found⟩ := exists_linkAt before first
  have next : (r.linksFrom first).drop seen =
      ((first + seen) % r.links.length, link) :: (r.linksFrom first).drop (seen + 1) := by
    have at' := linksFrom_getElem? start before
    rw [found, Option.map_some] at at'
    obtain ⟨inside, same⟩ := List.getElem?_eq_some_iff.1 at'
    rw [← same, List.getElem_cons_drop]
  rw [next, Inbound.look]
  cases taken : link.queue.takeFirst with
  | some first => exact (Step.take before found taken).answered
  | none =>
    have finished := ready link member taken
    refine Comes.after ((Step.miss before found taken).leads rfl) ?_
    simp only [finished, Bool.not_true, Bool.false_eq_true, if_false]
    cases failed : link.failure with
    | some f => exact (Step.failed found finished (by simp [failed])).answered
    | none =>
      exact Comes.after ((Step.passOver found finished failed).leads rfl)
        (look_comes ready start (Nat.succ_le_of_lt before))
termination_by r.links.length - seen

def answer : Except Fault (PeerId × Bytes) → Event
  | .ok (sender, payload) => .returned sender payload
  | .error f => .refused none f

def answerFrom (peer : PeerId) : Except Fault Bytes → Event
  | .ok payload => .returned peer payload
  | .error f => .refused (some peer) f

theorem Sound.ready (h : Sound options streams es s) :
    ∀ link ∈ s.receiver.awaitAll.links, Ready link := by
  intro link member
  obtain ⟨before, old, rfl⟩ := List.mem_map.1 member
  obtain ⟨i, found⟩ := List.getElem?_of_mem old
  obtain ⟨stream, -, served⟩ := h.served i before found
  obtain ⟨owed, failure, owes, -⟩ := served.owes
  rw [h.options_eq]
  exact ready_await owes

theorem receive_outcome (r : Inbound) : Inbound.receive.outcome r =
    if r.links.isEmpty then (.error .noSenders, r)
    else
      let u := r.awaitAll.takeTurn
      match Inbound.look (u.linksFrom r.nextFirst) with
      | .message i payload link => (.ok (link.sender, payload), u.setLink i link)
      | .fault f => (.error f, u)
      | .waits => (.error .allSendersClosed, u) := by
  rw [Inbound.receive, LinkAction.outcome_bind, LinkAction.outcome_get]
  by_cases none : r.links.isEmpty
  · simp only [none, if_true]
    rfl
  · have next : r.awaitAll.takeTurn = { r.awaitAll with turn := r.turn + 1 } := rfl
    simp only [none, Bool.false_eq_true, if_false, LinkAction.outcome_bind, LinkAction.outcome_set,
      next, Inbound.nextFirst]
    generalize Inbound.look _ = found
    cases found <;> rfl

theorem receiveFrom_outcome (r : Inbound) (peer : PeerId) : (Inbound.receiveFrom peer).outcome r =
    match r.links.findIdx? (·.sender = peer) with
    | none => (.error (.senderMissing peer.toInt), r)
    | some i =>
      match r.links[i]? with
      | none => (.error (.senderMissing peer.toInt), r)
      | some link =>
        let link := link.await r.options.frameLimit
        match link.queue.takeFirst with
        | some (m, q) => (.ok m.payload, r.setLink i { link with queue := q })
        | none => (.error link.closedFault, r.setLink i link) := by
  rw [Inbound.receiveFrom, LinkAction.outcome_bind, LinkAction.outcome_get]
  cases found : r.links.findIdx? (·.sender = peer) with
  | none => simp only [found]; rfl
  | some i =>
    cases at' : r.links[i]? with
    | none => simp only [found, at']; rfl
    | some link =>
      simp only [found, at']
      cases (link.await r.options.frameLimit).queue.takeFirst with
      | none => rfl
      | some taken => rfl

theorem Sound.receive_answered {result : Except Fault (PeerId × Bytes)}
    (h : Sound options streams es ⟨r, .idle⟩) (comes : Inbound.receive.outcome r = (result, r')) :
    Answered ⟨r, .idle⟩ (answer result) ⟨r', .idle⟩ := by
  rw [receive_outcome] at comes
  by_cases none : r.links.isEmpty
  · rw [if_pos none] at comes
    cases comes
    exact (Step.noSenders (List.isEmpty_iff.1 none)).answered
  rw [if_neg none] at comes
  have linked : r.links ≠ [] := fun empty => none (List.isEmpty_iff.2 empty)
  have began : Leads ⟨r, .idle⟩ ⟨r.takeTurn, .looking r.nextFirst 0 0⟩ := (Step.look linked).leads rfl
  have awaited : Leads ⟨r, .idle⟩ ⟨r.awaitAll.takeTurn, .looking r.nextFirst 0 0⟩ :=
    began.trans (leads_awaitAll r.takeTurn _)
  have start : r.nextFirst ≤ r.awaitAll.takeTurn.links.length := by
    have inside := Nat.mod_lt r.turn (List.length_pos_iff.2 linked)
    rw [Inbound.takeTurn, Inbound.awaitAll, List.length_map]
    exact Nat.le_of_lt inside
  have ready : ∀ link ∈ r.awaitAll.takeTurn.links, Ready link := h.ready
  have found := (look_comes ready start (Nat.zero_le _)).after awaited
  rw [List.drop_zero] at found
  cases looked : Inbound.look (r.awaitAll.takeTurn.linksFrom r.nextFirst) with
  | message | fault =>
    simp only [looked] at comes found
    cases comes
    exact found
  | waits =>
    rw [looked] at found
    exact found.elim

theorem await_sender : (link.await limit).sender = link.sender := by
  rw [InboundLink.await]
  split
  · cases moved : link.advance limit with
    | none => rfl
    | some link' => exact InboundLink.advance_sender moved
  · rfl

/-- What a call for one sender comes to that waits for its link, once the link is ready. -/
theorem expecting_answered {result : Except Fault Bytes} (found : r.links[i]? = some link)
    (ready : Ready link) (comes : (match link.queue.takeFirst with
      | some (m, q) => (.ok m.payload, r.setLink i { link with queue := q })
      | none => (.error link.closedFault, r)) = (result, r')) :
    Answered ⟨r, .expecting i⟩ (answerFrom link.sender result) ⟨r', .idle⟩ := by
  cases taken : link.queue.takeFirst with
  | some first =>
    rw [taken] at comes
    cases comes
    exact (Step.takeFrom found (Queue.pop_eq_message_iff.2 taken)).answered
  | none =>
    rw [taken] at comes
    cases comes
    have ended : link.queue.pop = .ended := by
      simpa [Queue.isFinished, Queue.pop_eq_ended_iff] using ready taken
    exact (Step.endFrom found ended).answered

theorem Sound.receiveFrom_answered {result : Except Fault Bytes}
    (h : Sound options streams es ⟨r, .idle⟩)
    (comes : (Inbound.receiveFrom peer).outcome r = (result, r')) :
    Answered ⟨r, .idle⟩ (answerFrom peer result) ⟨r', .idle⟩ := by
  rw [receiveFrom_outcome] at comes
  cases known : r.links.findIdx? (·.sender = peer) with
  | none =>
    rw [known] at comes
    cases comes
    refine (Step.missing fun member => ?_).answered
    obtain ⟨link, linked, own⟩ := List.mem_map.1 member
    simpa [own] using List.findIdx?_eq_none_iff.1 known link linked
  | some i =>
    obtain ⟨inside, own, -⟩ := List.findIdx?_eq_some_iff_getElem.1 known
    have own : r.links[i].sender = peer := of_decide_eq_true own
    have found : r.links[i]? = some r.links[i] := List.getElem?_eq_getElem inside
    obtain ⟨stream, -, served⟩ := h.served i _ found
    obtain ⟨owed, failure, owes, -⟩ := served.owes
    have awaited : Leads ⟨r, .idle⟩
        ⟨r.setLink i (r.links[i].await r.options.frameLimit), .expecting i⟩ :=
      ((Step.expect known).leads rfl).trans (leads_await found)
    have ready : Ready (r.links[i].await r.options.frameLimit) := by
      have limit_eq : r.options.frameLimit = options.frameLimit := by rw [← h.options_eq]
      rw [limit_eq]
      exact ready_await owes
    have same : (r.links[i].await r.options.frameLimit).sender = peer := await_sender.trans own
    simp only [known, found] at comes
    generalize r.links[i].await r.options.frameLimit = link at *
    subst same
    have at' : (r.setLink i link).links[i]? = some link := by simp [Inbound.setLink, inside]
    refine (expecting_answered at' ready ?_).after awaited
    simp only [setLink_setLink]
    exact comes

/-- Whatever the readers of links with distinct senders and the calls do in turns, what calls have
returned of a sender are, in order, the first payloads that arrived from it, and those are the first of
its stream. The others that arrived are still queued: a refused call takes nothing. A call for any payload
is refused if there are no links, or if all streams have ended unfailed and everything on them was
returned, or if one has failed and everything that arrived from it was returned. A call for one sender is
refused if there is no such link, or if its reader is through and everything that arrived was returned;
it names the failure if there is one. The calls that run take such steps. -/
theorem receives_in_order (options : LinkOptions) (bound : Bool) (backlog : List Arrival) (turn : Nat)
    (distinct : (streams.map Prod.fst).Nodup) (proper : ∀ stream ∈ streams, Frame.Proper stream.2)
    (run : Chain Step es ⟨opened options bound backlog turn streams, .idle⟩ s) :
    (∀ stream ∈ streams, returned stream.1 es <+: arrived stream.1 es ∧
      arrived stream.1 es <+: (Frame.readAll options.frameLimit stream.2).1) ∧
    (∀ sender payload, .returned sender payload ∈ es → sender ∈ streams.map Prod.fst) ∧
    (∀ link ∈ s.receiver.links,
      arrived link.sender es = returned link.sender es ++ link.queue.payloads) ∧
    (∀ stream ∈ streams, ∀ failure failure', .ended stream.1 failure ∈ es →
      .ended stream.1 failure' ∈ es → failure' = failure) ∧
    (∀ fault t, Step (.refused none fault) s t → t.receiver = s.receiver ∧
      (streams = [] ∧ fault = .noSenders ∨
        streams ≠ [] ∧ fault = .allSendersClosed ∧ (∀ stream ∈ streams, .ended stream.1 none ∈ es ∧
          Frame.readAll options.frameLimit stream.2 = (returned stream.1 es, none)) ∨
        ∃ stream ∈ streams, ∃ why, fault = .senderFailed stream.1.toInt why.message ∧
          Through options.frameLimit es stream (some why))) ∧
    (∀ peer fault t, Step (.refused (some peer) fault) s t → t.receiver = s.receiver ∧
      (peer ∉ streams.map Prod.fst ∧ fault = .senderMissing peer.toInt ∨
        ∃ stream ∈ streams, stream.1 = peer ∧ ∃ failure, fault = endFault peer failure ∧
          Through options.frameLimit es stream failure)) ∧
    (s.call = .idle →
      (∀ result r', Inbound.receive.outcome s.receiver = (result, r') →
        Answered s (answer result) ⟨r', .idle⟩) ∧
      ∀ peer result r', (Inbound.receiveFrom peer).outcome s.receiver = (result, r') →
        Answered s (answerFrom peer result) ⟨r', .idle⟩) := by
  have h : Sound options streams ([] ++ es) s :=
    run.keeps (sound_opened proper) fun _ _ _ _ before step => before.step distinct step
  rw [List.nil_append] at h
  refine ⟨fun stream member => ?_, fun sender payload member => h.known _ member sender rfl,
    fun link member => ?_, fun stream member _ _ => h.ended_unique member, fun _ _ => h.refused,
    fun _ _ _ => h.refusedFrom, fun idle => ?_⟩
  · obtain ⟨i, link, -, served⟩ := h.exists_link member
    exact ⟨served.arrived_eq ▸ List.prefix_append _ _, served.arrived_prefix⟩
  · obtain ⟨i, found⟩ := List.getElem?_of_mem member
    obtain ⟨stream, -, served⟩ := h.served i link found
    rw [served.sender_eq]
    exact served.arrived_eq
  · obtain ⟨r, call⟩ := s
    obtain rfl : call = .idle := idle
    exact ⟨fun _ _ => h.receive_answered, fun _ _ _ => h.receiveFrom_answered⟩

/-- Sender 7 sends one byte and leaves; the stream of sender 9 breaks off in a header. -/
def twoStreams : List (PeerId × Frame.Reads) := [(7, [Frame.encode [1]]), (9, [[5]])]

def twoEvents : List Event :=
  [.silent, .arrived 7 [1], .returned 7 [1], .ended 9 (some Frame.cutHeader), .silent, .silent]

/-- A link that was just accepted. -/
def twoLink (sender : PeerId) (reads : Frame.Reads) : InboundLink := ⟨sender, reads, .empty 64, none⟩

/-- The same link with a payload that its reader has queued. -/
def twoHeld (sender : PeerId) (payload : Bytes) : InboundLink :=
  { twoLink sender [] with queue := ⟨64, [.ofBytes payload], payload.length, false⟩ }

theorem two_run : Chain Step twoEvents ⟨opened ⟨64, true, none⟩ true [] 0 twoStreams, .idle⟩
    ⟨⟨⟨64, true, none⟩, true, [], [twoLink 7 [], (twoLink 9 []).finish (some Frame.cutHeader)], 2⟩,
      .passing 1 0 0⟩ := by
  have arrives : (twoLink 7 [Frame.encode [1]]).advance 64 = some (twoHeld 7 [1]) := by cbv
  have breaks : (twoLink 9 [[5]]).advance 64 =
      some ((twoLink 9 [[5]]).finish (some Frame.cutHeader)) := by cbv
  refine ⟨_, .look (List.cons_ne_nil _ _), ?_⟩
  refine ⟨_, @Step.arrive _ _ 0 (twoLink 7 [Frame.encode [1]]) _ _ _ rfl arrives rfl, ?_⟩
  refine ⟨_, @Step.take _ _ _ _ (twoHeld 7 [1]) (.ofBytes [1]) _ (by decide) rfl rfl, ?_⟩
  refine ⟨_, @Step.finish _ _ 1 (twoLink 9 [[5]]) _ rfl breaks, ?_⟩
  exact ⟨_, .look (List.cons_ne_nil _ _), _, .miss (by decide) rfl rfl, rfl⟩

theorem two_received : returned 7 twoEvents = [[1]] ∧
    returned 7 twoEvents <+: (Frame.readAll 64 [Frame.encode [1]]).1 ∧
    ∃ stream ∈ twoStreams, Through 64 twoEvents stream (some Frame.cutHeader) := by
  have distinct : (twoStreams.map Prod.fst).Nodup := by decide
  have proper : ∀ stream ∈ twoStreams, ∀ chunk ∈ stream.2, chunk ≠ [] := by decide
  obtain ⟨order, -, -, -, refused, -⟩ :=
    receives_in_order ⟨64, true, none⟩ true [] 0 distinct proper two_run
  refine ⟨rfl, ?_, ?_⟩
  · obtain ⟨first, then'⟩ := order (7, [Frame.encode [1]]) (by decide)
    exact first.trans then'
  · obtain ⟨-, ⟨none, -⟩ | ⟨-, other, -⟩ | ⟨stream, member, why, fault, through⟩⟩ :=
      refused _ _ (.failed rfl rfl rfl)
    · cases none
    · cases other
    · have ended : stream.1 = 9 ∧ why = Frame.cutHeader := by simpa [twoEvents] using through.ended
      exact ⟨stream, member, ended.2 ▸ through⟩

end Reception

end GraphRelay
