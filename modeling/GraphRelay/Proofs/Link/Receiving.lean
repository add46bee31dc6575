import GraphRelay.Proofs.Link.Delivery
import GraphRelay.Proofs.Transfer.Actions

/-!
# Receiving from several links

While a call looks at one link after the other, or waits for one of them, the readers of all links get
on. Each step is that of a reader or of the call. What is kept is said link by link: of the payloads that
have arrived from a sender those that were returned come first, and the others wait in its queue.
-/
namespace GraphRelay

open GraphRelay.Frame (Proper Carries)

variable {limit : Nat} {link link' : InboundLink} {reads : Frame.Reads}
variable {frames : List Bytes} {failure : Option Fault}

namespace Frame

/-- All that is read of a stream, and why not more: the stream itself, or the system, which can fail
before the stream does. -/
def Yielded (limit : Nat) (reads : Reads) (frames : List Bytes) (failure : Option Fault) : Prop :=
  readAll limit reads = (frames, failure) ∨
    (∃ reason, failure = some (.system "recv" reason)) ∧ frames <+: (readAll limit reads).1

theorem Yielded.isPrefix (h : Yielded limit reads frames failure) :
    frames <+: (readAll limit reads).1 := by
  rcases h with whole | ⟨-, part⟩
  · exact (congrArg Prod.fst whole).symm ▸ List.prefix_refl frames
  · exact part

theorem yielded_none_iff :
    Yielded limit reads frames none ↔ readAll limit reads = (frames, none) :=
  ⟨fun h => h.elim id nofun, .inl⟩

end Frame

open GraphRelay.Frame (Yielded)

/-- What a call does at present. The links that it looks at are counted from the one it `first` looked
at. -/
inductive Reception.Call where
  | idle
  /-- About to take what the next link has; of those before, so many were through. -/
  | looking (first seen spent : Nat)
  /-- Found nothing there and is about to ask whether the link is through. -/
  | passing (first seen spent : Nat)
  /-- Waits for one link. -/
  | expecting (position : Nat)
  deriving DecidableEq, Repr

/-- A receiver with its readers, and the call that is made of it. -/
structure Reception where
  receiver : Inbound
  call : Reception.Call

namespace Reception

inductive Event where
  /-- A reader queued a payload. -/
  | arrived (sender : PeerId) (payload : Bytes)
  /-- A reader is through. -/
  | ended (sender : PeerId) (failure : Option Fault)
  | returned (sender : PeerId) (payload : Bytes)
  /-- A call for any payload, or for one of one sender, was refused. -/
  | refused (asked : Option PeerId) (fault : Fault)
  | silent
  deriving DecidableEq, Repr

namespace Event

/-- The sender whose link the step touched. -/
def sender? : Event → Option PeerId
  | arrived sender _ | ended sender _ | returned sender _ => some sender
  | refused .. | silent => none

def arrival? (peer : PeerId) : Event → Option Bytes
  | arrived sender payload => if sender = peer then some payload else none
  | _ => none

def return? (peer : PeerId) : Event → Option Bytes
  | returned sender payload => if sender = peer then some payload else none
  | _ => none

end Event

/-- What the reader of a link has queued so far. -/
def arrived (peer : PeerId) (es : List Event) : List Bytes := es.filterMap (Event.arrival? peer)

/-- What calls have returned of a sender so far. -/
def returned (peer : PeerId) (es : List Event) : List Bytes := es.filterMap (Event.return? peer)

/-- What the system tells a reader when it cannot read on. -/
def cutFault (reason : String) : Fault := .system "recv" reason

end Reception

namespace Inbound

def setLink (r : Inbound) (i : Nat) (link : InboundLink) : Inbound :=
  { r with links := r.links.set i link }

/-- Where the next look of a call starts. -/
def nextFirst (r : Inbound) : Nat := r.turn % r.links.length

def takeTurn (r : Inbound) : Inbound := { r with turn := r.turn + 1 }

/-- The link that is looked at after `seen` others. -/
def linkAt? (r : Inbound) (first seen : Nat) : Option InboundLink :=
  r.links[(first + seen) % r.links.length]?

end Inbound

namespace Reception

inductive Step : Event → Reception → Reception → Prop where
  /-- A reader puts a payload into its queue, whatever the call is at. -/
  | arrive {r : Inbound} {call : Call} {i : Nat} {link : InboundLink} {payload : Bytes}
      {reads : Frame.Reads} {q : Queue} : r.links[i]? = some link →
      link.advance r.options.frameLimit = some { link with reads := reads, queue := q } →
      link.queue.push (.ofBytes payload) = .accepted q →
      Step (.arrived link.sender payload) ⟨r, call⟩
        ⟨r.setLink i { link with reads := reads, queue := q }, call⟩
  | finish {r : Inbound} {call : Call} {i : Nat} {link : InboundLink} {failure : Option Fault} :
      r.links[i]? = some link →
      link.advance r.options.frameLimit = some (link.finish failure) →
      Step (.ended link.sender failure) ⟨r, call⟩ ⟨r.setLink i (link.finish failure), call⟩
  | cut {r : Inbound} {call : Call} {i : Nat} {link : InboundLink} {reason : String} :
      r.links[i]? = some link → link.queue.closed = false →
      Step (.ended link.sender (some (cutFault reason))) ⟨r, call⟩
        ⟨r.setLink i (link.finish (some (cutFault reason))), call⟩
  /-- A call for any payload finds no senders. -/
  | noSenders {r : Inbound} : r.links = [] → Step (.refused none .noSenders) ⟨r, .idle⟩ ⟨r, .idle⟩
  | look {r : Inbound} : r.links ≠ [] →
      Step .silent ⟨r, .idle⟩ ⟨r.takeTurn, .looking r.nextFirst 0 0⟩
  | take {r : Inbound} {first seen spent : Nat} {link : InboundLink} {m : Message} {q : Queue} :
      seen < r.links.length → r.linkAt? first seen = some link →
      link.queue.takeFirst = some (m, q) →
      Step (.returned link.sender m.payload) ⟨r, .looking first seen spent⟩
        ⟨r.setLink ((first + seen) % r.links.length) { link with queue := q }, .idle⟩
  | miss {r : Inbound} {first seen spent : Nat} {link : InboundLink} :
      seen < r.links.length → r.linkAt? first seen = some link → link.queue.takeFirst = none →
      Step .silent ⟨r, .looking first seen spent⟩ ⟨r, .passing first seen spent⟩
  | pass {r : Inbound} {first seen spent : Nat} {link : InboundLink} :
      r.linkAt? first seen = some link → link.queue.isFinished = false →
      Step .silent ⟨r, .passing first seen spent⟩ ⟨r, .looking first (seen + 1) spent⟩
  | failed {r : Inbound} {first seen spent : Nat} {link : InboundLink} :
      r.linkAt? first seen = some link → link.queue.isFinished = true →
      link.failure.isSome = true →
      Step (.refused none link.closedFault) ⟨r, .passing first seen spent⟩ ⟨r, .idle⟩
  | passOver {r : Inbound} {first seen spent : Nat} {link : InboundLink} :
      r.linkAt? first seen = some link → link.queue.isFinished = true → link.failure = none →
      Step .silent ⟨r, .passing first seen spent⟩ ⟨r, .looking first (seen + 1) (spent + 1)⟩
  | allClosed {r : Inbound} {first : Nat} :
      Step (.refused none .allSendersClosed)
        ⟨r, .looking first r.links.length r.links.length⟩ ⟨r, .idle⟩
  | again {r : Inbound} {first spent : Nat} : spent ≠ r.links.length →
      Step .silent ⟨r, .looking first r.links.length spent⟩
        ⟨r.takeTurn, .looking r.nextFirst 0 0⟩
  /-- A call for a payload of one sender does not know it. -/
  | missing {r : Inbound} {peer : PeerId} : peer ∉ r.senders →
      Step (.refused (some peer) (.senderMissing peer.toInt)) ⟨r, .idle⟩ ⟨r, .idle⟩
  | expect {r : Inbound} {i : Nat} {peer : PeerId} :
      r.links.findIdx? (·.sender = peer) = some i → Step .silent ⟨r, .idle⟩ ⟨r, .expecting i⟩
  | takeFrom {r : Inbound} {i : Nat} {link : InboundLink} {m : Message} {q : Queue} :
      r.links[i]? = some link → link.queue.pop = .message m q →
      Step (.returned link.sender m.payload) ⟨r, .expecting i⟩
        ⟨r.setLink i { link with queue := q }, .idle⟩
  | endFrom {r : Inbound} {i : Nat} {link : InboundLink} :
      r.links[i]? = some link → link.queue.pop = .ended →
      Step (.refused (some link.sender) link.closedFault) ⟨r, .expecting i⟩ ⟨r, .idle⟩

variable {peer : PeerId} {payload : Bytes} {e : Event} {es : List Event} {fault : Fault}
variable {r : Inbound} {s t : Reception} {stream : PeerId × Frame.Reads} {q : Queue} {m : Message}

theorem arrived_concat (peer : PeerId) (es : List Event) (e : Event) :
    arrived peer (es ++ [e]) = arrived peer es ++ (e.arrival? peer).toList :=
  filterMap_concat _ es e

theorem returned_concat (peer : PeerId) (es : List Event) (e : Event) :
    returned peer (es ++ [e]) = returned peer es ++ (e.return? peer).toList :=
  filterMap_concat _ es e

theorem arrival?_of_ne (other : e.sender? ≠ some peer) : e.arrival? peer = none := by
  cases e with
  | arrived sender payload => exact if_neg fun same => other (congrArg some same)
  | _ => rfl

theorem return?_of_ne (other : e.sender? ≠ some peer) : e.return? peer = none := by
  cases e with
  | returned sender payload => exact if_neg fun same => other (congrArg some same)
  | _ => rfl

/-- How a link stands to its stream after the events: nothing was lost between the reader and the calls,
what is still to come completes what was returned, and the end was told once. -/
structure Served (limit : Nat) (es : List Event) (stream : PeerId × Frame.Reads)
    (link : InboundLink) : Prop where
  sender_eq : link.sender = stream.1
  owes : ∃ owed failure, link.Owes limit owed failure ∧
    Yielded limit stream.2 (returned stream.1 es ++ owed) failure
  arrived_eq : arrived stream.1 es = returned stream.1 es ++ link.queue.payloads
  ended_iff : ∀ failure, .ended stream.1 failure ∈ es ↔
    link.queue.closed = true ∧ link.failure = failure

theorem served_fresh {capacity : Nat} (bound : limit ≤ capacity) (proper : Proper stream.2) :
    Served limit [] stream ⟨stream.1, stream.2, .empty capacity, none⟩ where
  sender_eq := rfl
  owes := by
    obtain ⟨frames, failure, carries⟩ := Frame.exists_carries limit stream.2.flatten
    exact ⟨frames, failure, InboundLink.owes_fresh proper bound carries, .inl (carries.readAll proper)⟩
  arrived_eq := rfl
  ended_iff failure := ⟨nofun, nofun⟩

theorem Served.other (h : Served limit es stream link) (other : e.sender? ≠ some stream.1) :
    Served limit (es ++ [e]) stream link where
  sender_eq := h.sender_eq
  owes := by
    rw [returned_concat, return?_of_ne other]
    simpa using h.owes
  arrived_eq := by
    rw [arrived_concat, arrival?_of_ne other, returned_concat, return?_of_ne other]
    simpa using h.arrived_eq
  ended_iff failure := by
    have unsaid : Event.ended stream.1 failure ≠ e := by
      rintro rfl
      exact other rfl
    rw [List.mem_append, List.mem_singleton, or_iff_left unsaid]
    exact h.ended_iff failure

theorem Served.arrive (h : Served limit es stream link)
    (moved : link.advance limit = some { link with reads := reads, queue := q })
    (pushed : link.queue.push (.ofBytes payload) = .accepted q) :
    Served limit (es ++ [.arrived link.sender payload]) stream
      { link with reads := reads, queue := q } where
  sender_eq := h.sender_eq
  owes := by
    obtain ⟨owed, failure, owes, yielded⟩ := h.owes
    refine ⟨owed, failure, owes.advance moved, ?_⟩
    rw [returned_concat]
    simpa [Event.return?] using yielded
  arrived_eq := by
    obtain ⟨-, -, rfl⟩ := Queue.push_eq_accepted_iff.1 pushed
    rw [arrived_concat, returned_concat, h.arrived_eq, h.sender_eq]
    simp [Event.arrival?, Event.return?, Queue.payloads, Message.ofBytes]
  ended_iff failure := by
    obtain ⟨-, -, rfl⟩ := Queue.push_eq_accepted_iff.1 pushed
    simpa using h.ended_iff failure

theorem Served.finish (h : Served limit es stream link) (opened : link.queue.closed = false)
    (owes : ∃ owed reason, (link.finish failure).Owes limit owed reason ∧
      Yielded limit stream.2 (returned stream.1 es ++ owed) reason) :
    Served limit (es ++ [.ended link.sender failure]) stream (link.finish failure) where
  sender_eq := h.sender_eq
  owes := by
    rw [returned_concat]
    simpa [Event.return?] using owes
  arrived_eq := by
    rw [arrived_concat, returned_concat, h.arrived_eq]
    simp [Event.arrival?, Event.return?, InboundLink.finish, Queue.close, Queue.payloads]
  ended_iff failure' := by
    have before : .ended stream.1 failure' ∉ es := by
      rw [h.ended_iff, opened]
      simp
    simp [before, h.sender_eq, InboundLink.finish, Queue.close, eq_comm]

theorem Served.take (h : Served limit es stream link)
    (taken : link.queue.takeFirst = some (m, q)) :
    Served limit (es ++ [.returned link.sender m.payload]) stream { link with queue := q } where
  sender_eq := h.sender_eq
  owes := by
    obtain ⟨owed, failure, owes, yielded⟩ := h.owes
    obtain ⟨later, rfl, rest⟩ := owes.take taken
    refine ⟨later, failure, rest, ?_⟩
    rw [returned_concat, h.sender_eq]
    simpa [Event.return?] using yielded
  arrived_eq := by
    have front := (Queue.takeFirst_eq_some_iff.1 taken).1
    rw [arrived_concat, returned_concat, h.arrived_eq, h.sender_eq, Queue.payloads, front]
    simp [Event.arrival?, Event.return?, Queue.payloads]
  ended_iff failure := by
    rw [Queue.takeFirst_closed taken]
    simpa using h.ended_iff failure

/-- What was queued is a part of what the stream carries. -/
theorem Served.arrived_prefix (h : Served limit es stream link) :
    arrived stream.1 es <+: (Frame.readAll limit stream.2).1 := by
  obtain ⟨owed, failure, owes, yielded⟩ := h.owes
  refine List.IsPrefix.trans ?_ yielded.isPrefix
  rw [h.arrived_eq, List.prefix_append_right_inj]
  cases closed : link.queue.closed with
  | false =>
    obtain ⟨later, -, rfl⟩ := owes.of_open closed
    exact List.prefix_append _ _
  | true => exact (owes.of_closed closed).1 ▸ List.prefix_refl _

/-- A link that its reader gave up owes what is queued. -/
theorem Served.owes_cut (h : Served limit es stream link) (opened : link.queue.closed = false)
    (reason : String) :
    ∃ owed failure, (link.finish (some (cutFault reason))).Owes limit owed failure ∧
      Yielded limit stream.2 (returned stream.1 es ++ owed) failure := by
  obtain ⟨owed, failure, owes, yielded⟩ := h.owes
  obtain ⟨later, -, rfl⟩ := owes.of_open opened
  refine ⟨link.queue.payloads, some (cutFault reason),
    ⟨owes.accounted.close, owes.limit_le, nofun, nofun, fun _ => ⟨rfl, rfl⟩⟩, .inr ⟨⟨reason, rfl⟩, ?_⟩⟩
  rw [← List.append_assoc] at yielded
  exact (List.prefix_append _ _).trans yielded.isPrefix

/-- The reader of a sender told its end, and calls have returned all that arrived before. -/
structure Through (limit : Nat) (es : List Event) (stream : PeerId × Frame.Reads)
    (failure : Option Fault) : Prop where
  ended : .ended stream.1 failure ∈ es
  returned_eq : returned stream.1 es = arrived stream.1 es
  yielded : Yielded limit stream.2 (returned stream.1 es) failure

theorem Served.through (h : Served limit es stream link)
    (finished : link.queue.isFinished = true) : Through limit es stream link.failure := by
  obtain ⟨closed, empty⟩ : link.queue.closed = true ∧ link.queue.items = [] := by
    simpa [Queue.isFinished] using finished
  have unqueued : link.queue.payloads = [] := by rw [Queue.payloads, empty, List.map_nil]
  obtain ⟨owed, failure, owes, yielded⟩ := h.owes
  obtain ⟨rfl, rfl⟩ := owes.of_closed closed
  refine ⟨(h.ended_iff _).2 ⟨closed, rfl⟩, ?_, ?_⟩
  · rw [h.arrived_eq, unqueued, List.append_nil]
  · rwa [unqueued, List.append_nil] at yielded

/-- Of the `seen` links looked at `spent` were through. If all were, they are through and unfailed. -/
def Passed (r : Inbound) (first seen spent : Nat) : Prop :=
  spent ≤ seen ∧ (spent = seen → ∀ j < seen, ∀ link, r.linkAt? first j = some link →
    link.queue.isFinished = true ∧ link.failure = none)

/-- What a call knows of the links. -/
def Call.Knows (r : Inbound) : Call → Prop
  | .looking first seen spent =>
    r.links ≠ [] ∧ seen ≤ r.links.length ∧ Passed r first seen spent
  | .passing first seen spent => seen < r.links.length ∧ Passed r first seen spent
  | .idle | .expecting _ => True

/-- Only links that are not through change. -/
theorem Passed.setLink {i first seen spent : Nat} (h : Passed r first seen spent)
    (found : r.links[i]? = some link) (unfinished : link.queue.isFinished = false) :
    Passed (r.setLink i link') first seen spent := by
  refine ⟨h.1, fun all j before other at' => ?_⟩
  rw [Inbound.linkAt?, Inbound.setLink, List.length_set] at at'
  by_cases same : i = (first + j) % r.links.length
  · have through := h.2 all j before link (by rw [Inbound.linkAt?, ← same, found])
    rw [unfinished] at through
    cases through.1
  · rw [List.getElem?_set_ne same] at at'
    exact h.2 all j before other at'

/-- The receiver of the links with these streams, whatever the call is at. -/
structure Sound (options : LinkOptions) (streams : List (PeerId × Frame.Reads)) (es : List Event)
    (s : Reception) : Prop where
  options_eq : s.receiver.options = options
  length_eq : s.receiver.links.length = streams.length
  served : ∀ (i : Nat) (link : InboundLink), s.receiver.links[i]? = some link →
    ∃ stream : PeerId × Frame.Reads, streams[i]? = some stream ∧
      Served options.frameLimit es stream link
  known : ∀ e ∈ es, ∀ peer, e.sender? = some peer → peer ∈ streams.map Prod.fst
  knows : s.call.Knows s.receiver

variable {options : LinkOptions} {streams : List (PeerId × Frame.Reads)}

/-- A step of a call that leaves every link alone. -/
theorem Sound.quiet (h : Sound options streams es s) (kept : t.receiver.links = s.receiver.links)
    (same : t.receiver.options = s.receiver.options) (unsaid : e.sender? = none)
    (knows : t.call.Knows t.receiver) : Sound options streams (es ++ [e]) t where
  options_eq := same.trans h.options_eq
  length_eq := kept ▸ h.length_eq
  served i link found := by
    obtain ⟨stream, own, served⟩ := h.served i link (kept ▸ found)
    exact ⟨stream, own, served.other (by simp [unsaid])⟩
  known e' member peer said := by
    rcases List.mem_append.1 member with before | now
    · exact h.known e' before peer said
    · rw [List.mem_singleton.1 now, unsaid] at said
      cases said
  knows := knows

theorem Sound.touch {call : Call} {i : Nat} (h : Sound options streams es s)
    (distinct : (streams.map Prod.fst).Nodup) (found : s.receiver.links[i]? = some link)
    (own : e.sender? = some link.sender)
    (next : ∀ stream, Served options.frameLimit es stream link →
      Served options.frameLimit (es ++ [e]) stream link')
    (knows : call.Knows (s.receiver.setLink i link')) :
    Sound options streams (es ++ [e]) ⟨s.receiver.setLink i link', call⟩ where
  options_eq := h.options_eq
  length_eq := by simpa [Inbound.setLink] using h.length_eq
  served j other at' := by
    obtain ⟨stream, at_i, served⟩ := h.served i link found
    by_cases same : i = j
    · subst same
      obtain ⟨inside, -⟩ := List.getElem?_eq_some_iff.1 found
      obtain rfl : link' = other := by simpa [Inbound.setLink, inside] using at'
      exact ⟨stream, at_i, next stream served⟩
    · have old : s.receiver.links[j]? = some other := by
        simpa [Inbound.setLink, List.getElem?_set_ne same] using at'
      obtain ⟨stream', at_j, served'⟩ := h.served j other old
      refine ⟨stream', at_j, served'.other fun said => same ?_⟩
      have ids : stream.1 = stream'.1 := by
        rw [← served.sender_eq, ← Option.some.injEq, ← own, said]
      have first : (streams.map Prod.fst)[i]? = some stream.1 := by simp [at_i]
      have second : (streams.map Prod.fst)[j]? = some stream.1 := by simp [at_j, ids]
      obtain ⟨inside, -⟩ := List.getElem?_eq_some_iff.1 first
      exact (List.getElem?_inj inside distinct).1 (first.trans second.symm)
  known e' member peer said := by
    rcases List.mem_append.1 member with before | now
    · exact h.known e' before peer said
    · obtain ⟨stream, at_i, served⟩ := h.served i link found
      rw [List.mem_singleton.1 now, own, Option.some.injEq, served.sender_eq] at said
      exact said ▸ List.mem_map_of_mem (List.mem_of_getElem? at_i)
  knows := knows

/-- Readers get on only with links that are not through, so that what a call knows stays true. -/
theorem knows_setLink {call : Call} {i : Nat} (knows : call.Knows r)
    (found : r.links[i]? = some link) (unfinished : link.queue.isFinished = false) :
    call.Knows (r.setLink i link') := by
  have same : (r.setLink i link').links.length = r.links.length := List.length_set
  cases call with
  | idle | expecting => exact trivial
  | looking first seen spent =>
    refine ⟨fun none => knows.1 ?_, same ▸ knows.2.1, knows.2.2.setLink found unfinished⟩
    exact List.length_eq_zero_iff.1 (by rw [← same, none, List.length_nil])
  | passing first seen spent => exact ⟨same ▸ knows.1, knows.2.setLink found unfinished⟩

theorem isFinished_of_open (opened : link.queue.closed = false) : link.queue.isFinished = false := by
  rw [Queue.isFinished, opened, Bool.false_and]

theorem closed_of_advance (moved : link.advance limit = some link') : link.queue.closed = false := by
  cases closed : link.queue.closed with
  | false => rfl
  | true => simp [InboundLink.advance, closed] at moved

theorem Passed.next {first seen spent : Nat} (h : Passed r first seen spent)
    (found : r.linkAt? first seen = some link) (clean : link.queue.isFinished = true)
    (unfailed : link.failure = none) : Passed r first (seen + 1) (spent + 1) := by
  refine ⟨Nat.succ_le_succ h.1, fun all j before other at' => ?_⟩
  rcases Nat.lt_succ_iff_lt_or_eq.1 before with earlier | rfl
  · exact h.2 (Nat.succ.inj all) j earlier other at'
  · obtain rfl := Option.some.inj (found.symm.trans at')
    exact ⟨clean, unfailed⟩

theorem Passed.skip {first seen spent : Nat} (h : Passed r first seen spent) :
    Passed r first (seen + 1) spent :=
  ⟨Nat.le_succ_of_le h.1, fun all => absurd h.1 (by omega)⟩

theorem passed_none (r : Inbound) (first : Nat) : Passed r first 0 0 :=
  ⟨Nat.le_refl 0, fun _ _ before => absurd before (Nat.not_lt_zero _)⟩

/-- What a call knows stays true, whoever gets on. -/
theorem Step.knows (step : Step e s t) (knows : s.call.Knows s.receiver) :
    t.call.Knows t.receiver := by
  cases step with
  | arrive found moved | finish found moved =>
    exact knows_setLink knows found (isFinished_of_open (closed_of_advance moved))
  | cut found opened => exact knows_setLink knows found (isFinished_of_open opened)
  | take | takeFrom | noSenders | allClosed | missing | failed | endFrom | expect => exact trivial
  | look linked => exact ⟨linked, Nat.zero_le _, passed_none _ _⟩
  | again => exact ⟨knows.1, Nat.zero_le _, passed_none _ _⟩
  | miss seen => exact ⟨seen, knows.2.2⟩
  | pass found unfinished =>
    exact ⟨List.ne_nil_of_length_pos (Nat.zero_lt_of_lt knows.1), knows.1, knows.2.skip⟩
  | passOver found finished unfailed =>
    exact ⟨List.ne_nil_of_length_pos (Nat.zero_lt_of_lt knows.1), knows.1,
      knows.2.next found finished unfailed⟩

theorem Sound.step (h : Sound options streams es s) (distinct : (streams.map Prod.fst).Nodup)
    (step : Step e s t) : Sound options streams (es ++ [e]) t := by
  have bound : s.receiver.options.frameLimit = options.frameLimit := by rw [h.options_eq]
  have knows := step.knows h.knows
  cases step with
  | arrive found moved pushed =>
    rw [bound] at moved
    exact h.touch distinct found rfl (fun stream served => served.arrive moved pushed) knows
  | finish found moved =>
    rw [bound] at moved
    refine h.touch distinct found rfl (fun stream served => ?_) knows
    obtain ⟨owed, reason, owes, yielded⟩ := served.owes
    exact served.finish (closed_of_advance moved) ⟨owed, reason, owes.advance moved, yielded⟩
  | cut found opened =>
    exact h.touch distinct found rfl
      (fun stream served => served.finish opened (served.owes_cut opened _)) knows
  | take seen found taken =>
    exact h.touch distinct found rfl (fun stream served => served.take taken) knows
  | takeFrom found popped =>
    have taken := Queue.pop_eq_message_iff.1 popped
    exact h.touch distinct found rfl (fun stream served => served.take taken) knows
  | noSenders | allClosed | missing | failed | endFrom | expect | look | again | miss | pass
    | passOver => exact h.quiet rfl rfl rfl knows

/-- The receiver as it is once all senders are accepted. -/
def opened (options : LinkOptions) (bound : Bool) (backlog : List Arrival) (turn : Nat)
    (streams : List (PeerId × Frame.Reads)) : Inbound :=
  let link (stream : PeerId × Frame.Reads) : InboundLink :=
    ⟨stream.1, stream.2, .empty options.queueCapacity, none⟩
  ⟨options, bound, backlog, streams.map link, turn⟩

theorem sound_opened {bound : Bool} {backlog : List Arrival} {turn : Nat}
    (proper : ∀ stream ∈ streams, Proper stream.2) :
    Sound options streams [] ⟨opened options bound backlog turn streams, .idle⟩ where
  options_eq := rfl
  length_eq := List.length_map ..
  served i link found := by
    rw [opened, List.getElem?_map] at found
    obtain ⟨stream, own, rfl⟩ := Option.map_eq_some_iff.1 found
    exact ⟨stream, own, served_fresh options.frameLimit_le (proper stream (List.mem_of_getElem? own))⟩
  known := nofun
  knows := trivial

end Reception

end GraphRelay
