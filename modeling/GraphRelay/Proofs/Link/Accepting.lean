import GraphRelay.Proofs.Link.Delivery
import GraphRelay.Proofs.Transfer.Actions
import GraphRelay.Proofs.Traversal
import Mathlib.Data.List.Perm.Basic

/-!
# Who is connected

A call that accepts several links takes them one by one, and can be refused at any of them. The links
it has taken by then stay, so that the receiver goes on with them; they are put in order by the next
call that is not refused.
-/
namespace GraphRelay.Inbound

variable {r r' : Inbound} {link link' : InboundLink} {arrival : Arrival} {f : Fault} {n : Nat}

def sortIds (ids : List PeerId) : List PeerId := ids.mergeSort fun a b => decide (a ≤ b)

theorem sortIds_nil : sortIds [] = [] := List.mergeSort_nil

theorem sortIds_perm (ids : List PeerId) : (sortIds ids).Perm ids := List.mergeSort_perm ..

theorem pairwise_sortIds (ids : List PeerId) : (sortIds ids).Pairwise (· ≤ ·) := by
  have sorted : (sortIds ids).Pairwise fun a b => decide (a ≤ b) = true :=
    List.pairwise_mergeSort (fun a b c => by simpa using Int32.le_trans)
      (fun a b => by simpa using Int32.le_total a b) ids
  exact sorted.imp of_decide_eq_true

/-- What ids are sorted to does not depend on the order in which they came. -/
theorem sortIds_congr {ids ids' : List PeerId} (same : ids.Perm ids') :
    sortIds ids = sortIds ids' := by
  have both : (sortIds ids).Perm (sortIds ids') :=
    (sortIds_perm ids).trans (same.trans (sortIds_perm ids').symm)
  exact both.eq_of_pairwise (fun a b _ _ => Int32.le_antisymm) (pairwise_sortIds ids)
    (pairwise_sortIds ids')

theorem pairwise_lt_sortIds {ids : List PeerId} (distinct : ids.Nodup) :
    (sortIds ids).Pairwise (· < ·) := by
  have apart : (sortIds ids).Nodup := (sortIds_perm ids).nodup_iff.2 distinct
  exact (pairwise_sortIds ids).imp₂ (fun _ _ least other => Int32.lt_of_le_of_ne least other) apart

theorem senders_sortLinks : r.sortLinks.senders = sortIds r.senders :=
  List.map_mergeSort fun _ _ _ _ => rfl

theorem expect_links : (r.expect arrival).links = r.links := by
  rw [expect]
  split <;> rfl

/-- A link is accepted under an id that no other link has. -/
theorem sender_notMem_of_greet (met : r.greet arrival = .ok link) : link.sender ∉ r.senders := by
  obtain ⟨⟨sender, reads⟩, -, fresh⟩ := bind_ok_iff.1 met
  by_cases repeated : r.links.any (·.sender = sender)
  · simp [repeated] at fresh
  · simp only [repeated, Bool.false_eq_true, if_false, Except.ok.injEq] at fresh
    subst fresh
    simpa [senders] using repeated

theorem bind_yields {network : Network} {address : String}
    (listens : (Inbound.bind network address).Yields r () r') :
    r' = { r with bound := true, backlog := [] } := by
  obtain ⟨endpoint, t, parsed, rest⟩ := LinkAction.bind_yields.1 listens
  obtain ⟨resolved, u, known, rest⟩ := LinkAction.bind_yields.1 rest
  rw [(LinkAction.lift_yields.1 known).2, (LinkAction.lift_yields.1 parsed).2] at rest
  split at rest
  · exact absurd rest LinkAction.not_throw_yields
  · exact (congrArg Prod.snd rest).symm

/-- Who cannot listen is left as they were. -/
theorem bind_refuses {network : Network} {address : String}
    (refused : (Inbound.bind network address).Refuses r f r') : r' = r := by
  obtain unparsed | ⟨endpoint, t, parsed, rest⟩ := LinkAction.bind_refuses.1 refused
  · exact (LinkAction.lift_refuses.1 unparsed).2
  rw [(LinkAction.lift_yields.1 parsed).2] at rest
  obtain unknown | ⟨resolved, u, known, rest⟩ := LinkAction.bind_refuses.1 rest
  · exact (LinkAction.lift_refuses.1 unknown).2
  rw [(LinkAction.lift_yields.1 known).2] at rest
  split at rest
  · exact (LinkAction.throw_refuses.1 rest).2
  · cases congrArg Prod.fst rest

/-- A receiver, and how many links a call is still to accept while one is at it. -/
structure Intake where
  receiver : Inbound
  due : Option Nat

namespace Intake

inductive Event where
  | bound
  | came (arrival : Arrival)
  /-- The reader of a link got on. -/
  | read
  | began (n : Nat)
  | accepted (sender : PeerId)
  /-- Everyone was accepted whom the call was to accept. -/
  | ordered
  | refused (fault : Fault)
  | finalized
  deriving DecidableEq, Repr

inductive Step : Event → Intake → Intake → Prop where
  | bind {network : Network} {address : String} {r r' : Inbound} :
      (Inbound.bind network address).Yields r () r' → Step .bound ⟨r, none⟩ ⟨r', none⟩
  | bindRefused {network : Network} {address : String} {f : Fault} {r r' : Inbound} :
      (Inbound.bind network address).Refuses r f r' → Step (.refused f) ⟨r, none⟩ ⟨r', none⟩
  | come {arrival : Arrival} {r : Inbound} {due : Option Nat} :
      Step (.came arrival) ⟨r, due⟩ ⟨r.expect arrival, due⟩
  | read {i : Nat} {link link' : InboundLink} {r : Inbound} {due : Option Nat} :
      r.links[i]? = some link → link.advance r.options.frameLimit = some link' →
      Step .read ⟨r, due⟩ ⟨{ r with links := r.links.set i link' }, due⟩
  | begin {n : Nat} {r : Inbound} : r.bound = true → Step (.began n) ⟨r, none⟩ ⟨r, some n⟩
  | unbound {r : Inbound} : r.bound = false → Step (.refused .unbound) ⟨r, none⟩ ⟨r, none⟩
  | accept {n : Nat} {r : Inbound} {arrival : Arrival} {rest : List Arrival} {link : InboundLink} :
      r.backlog = arrival :: rest → r.greet arrival = .ok link →
      Step (.accepted link.sender) ⟨r, some (n + 1)⟩
        ⟨{ r with backlog := rest, links := r.links ++ [link] }, some n⟩
  | refuse {n : Nat} {r : Inbound} {arrival : Arrival} {rest : List Arrival} {f : Fault} :
      r.backlog = arrival :: rest → r.greet arrival = .error f →
      Step (.refused f) ⟨r, some (n + 1)⟩ ⟨{ r with backlog := rest }, none⟩
  | order {r : Inbound} : Step .ordered ⟨r, some 0⟩ ⟨r.sortLinks, none⟩
  | finalize {r : Inbound} : Step .finalized ⟨r, none⟩ ⟨r.finalize, none⟩

/-- Who was accepted since the links were last closed. -/
structure Roll where
  /-- By the time the links were last put in order. -/
  settled : List PeerId
  /-- After that. -/
  recent : List PeerId

namespace Roll

def note : Roll → Event → Roll
  | roll, .accepted sender => ⟨roll.settled, roll.recent ++ [sender]⟩
  | roll, .ordered => ⟨roll.settled ++ roll.recent, []⟩
  | _, .finalized => ⟨[], []⟩
  | roll, _ => roll

def ids (roll : Roll) : List PeerId := roll.settled ++ roll.recent

/-- Those that were put in order, and then the others as they came. -/
def listed (roll : Roll) : List PeerId :=
  sortIds roll.settled ++ roll.recent

theorem listed_perm (roll : Roll) : roll.listed.Perm roll.ids :=
  (sortIds_perm roll.settled).append_right roll.recent

end Roll

def roll (es : List Event) : Roll := es.foldl Roll.note ⟨[], []⟩

theorem roll_concat (es : List Event) (e : Event) : roll (es ++ [e]) = (roll es).note e := by
  rw [roll, List.foldl_concat, roll]

end Intake

open Intake (Event Step Roll roll)

namespace Intake

theorem Roll.listed_ordered (roll : Roll) : (roll.note .ordered).listed = sortIds roll.listed := by
  have same : sortIds roll.ids = sortIds roll.listed := sortIds_congr roll.listed_perm.symm
  exact (List.append_nil _).trans same

structure Enrolled (es : List Event) (s : Intake) : Prop where
  senders_eq : s.receiver.senders = (roll es).listed
  nodup : s.receiver.senders.Nodup
  settled : s.due = none → (∀ f, .refused f ∉ es) → (roll es).recent = []

variable {es : List Event} {e : Event} {s t : Intake}

theorem enrolled_start (options : LinkOptions) : Enrolled [] ⟨start options, none⟩ where
  senders_eq := by simp [senders, start, roll, Roll.listed, sortIds_nil]
  nodup := List.nodup_nil
  settled _ _ := rfl

/-- Steps that neither accept nor sort nor close leave everybody where they are. -/
theorem Enrolled.same (h : Enrolled es s) (kept : t.receiver.senders = s.receiver.senders)
    (unnoted : (roll es).note e = roll es)
    (idle : t.due = none → s.due = none ∨ ∃ f, e = .refused f) : Enrolled (es ++ [e]) t where
  senders_eq := by rw [kept, h.senders_eq, roll_concat, unnoted]
  nodup := kept ▸ h.nodup
  settled done unrefused := by
    rw [roll_concat, unnoted]
    have before : ∀ f, .refused f ∉ es := fun f member => unrefused f (by simp [member])
    rcases idle done with already | ⟨f, rfl⟩
    · exact h.settled already before
    · exact absurd (by simp) (unrefused f)

theorem Enrolled.step (h : Enrolled es s) (step : Step e s t) : Enrolled (es ++ [e]) t := by
  cases step with
  | bind listens =>
    refine h.same ?_ rfl fun _ => .inl rfl
    rw [bind_yields listens]
    rfl
  | bindRefused refused =>
    refine h.same ?_ rfl fun _ => .inl rfl
    rw [bind_refuses refused]
  | come =>
    refine h.same ?_ rfl .inl
    rw [senders, expect_links, senders]
  | @read i link link' r due found got =>
    refine h.same ?_ rfl .inl
    have own : r.senders[i]? = some link.sender := by simp [senders, found]
    obtain ⟨inside, same⟩ := List.getElem?_eq_some_iff.1 own
    rw [senders, List.map_set, InboundLink.advance_sender got, ← same]
    exact List.set_getElem_self inside
  | begin => exact h.same rfl rfl nofun
  | unbound => exact h.same rfl rfl fun _ => .inl rfl
  | refuse => exact h.same rfl rfl fun _ => .inr ⟨_, rfl⟩
  | @accept n r arrival rest link waiting met =>
    have last : senders { r with backlog := rest, links := r.links ++ [link] } =
        r.senders ++ [link.sender] := by simp [senders]
    refine ⟨?_, ?_, nofun⟩
    · rw [last, h.senders_eq, roll_concat, Roll.listed, Roll.listed, List.append_assoc]
      rfl
    · rw [last]
      refine List.nodup_append.2 ⟨h.nodup, List.pairwise_singleton _ _, fun a member b own => ?_⟩
      rw [List.mem_singleton.1 own]
      exact ne_of_mem_of_not_mem member (sender_notMem_of_greet met)
  | @order r =>
    refine ⟨?_, ?_, fun _ _ => ?_⟩
    · rw [senders_sortLinks, h.senders_eq, roll_concat, Roll.listed_ordered]
    · rw [senders_sortLinks]
      exact (sortIds_perm r.senders).nodup_iff.2 h.nodup
    · rw [roll_concat]
      rfl
  | finalize =>
    refine ⟨?_, List.nodup_nil, fun _ _ => ?_⟩ <;> rw [roll_concat]
    · show [] = sortIds [] ++ []
      rw [sortIds_nil, List.append_nil]
    · rfl

inductive Call where
  | bind (network : Network) (address : String)
  | expect (arrival : Arrival)
  | accept (n : Nat)
  | finalize

/-- The receiver after a call, if it need not wait for somebody to come. -/
def Call.apply (r : Inbound) : Call → Option Inbound
  | .bind network address => some ((Inbound.bind network address).outcome r).2
  | .expect arrival => some (r.expect arrival)
  | .accept n => (r.accept n).map Prod.snd
  | .finalize => some r.finalize

theorem Step.cons_chain {u : Intake} (first : Step e s t) (rest : ∃ es, Chain Step es t u) :
    ∃ es, Chain Step es s u :=
  rest.elim fun es later => ⟨e :: es, t, first, later⟩

theorem acceptLinks_accept {rest : List Arrival} (waiting : r.backlog = arrival :: rest)
    (met : r.greet arrival = .ok link) : acceptLinks (n + 1) r =
      acceptLinks n { r with backlog := rest, links := r.links ++ [link] } := by
  have met : { r with backlog := rest }.greet arrival = .ok link := met
  rw [acceptLinks, waiting]
  simp only [met]

theorem acceptLinks_refuse {rest : List Arrival} (waiting : r.backlog = arrival :: rest)
    (refused : r.greet arrival = .error f) :
    acceptLinks (n + 1) r = some (.error f, { r with backlog := rest }) := by
  have refused : { r with backlog := rest }.greet arrival = .error f := refused
  rw [acceptLinks, waiting]
  simp only [refused]

theorem acceptLinks_chain {result : Except Fault Unit}
    (returns : acceptLinks n r = some (result, r')) :
    ∃ es, Chain Step es ⟨r, some n⟩ ⟨r', if result = .ok () then some 0 else none⟩ := by
  induction n generalizing r with
  | zero =>
    cases returns
    exact ⟨[], rfl⟩
  | succ n ih =>
    cases waiting : r.backlog with
    | nil =>
      rw [acceptLinks, waiting] at returns
      cases returns
    | cons arrival rest =>
      cases met : r.greet arrival with
      | error f =>
        rw [acceptLinks_refuse waiting met] at returns
        cases returns
        exact ⟨_, .one (.refuse waiting met)⟩
      | ok link =>
        rw [acceptLinks_accept waiting met] at returns
        exact (Step.accept waiting met).cons_chain (ih returns)

theorem accept_chain {result : Except Fault Unit} (returns : r.accept n = some (result, r')) :
    ∃ es, Chain Step es ⟨r, none⟩ ⟨r', none⟩ := by
  rw [accept] at returns
  split at returns
  · next unbound =>
    cases returns
    exact ⟨_, .one (.unbound (by simpa using unbound))⟩
  next bound =>
  have bound : r.bound = true := by simpa using bound
  cases accepted : acceptLinks n r with
  | none => simp [accepted] at returns
  | some outcome =>
    obtain ⟨result, u⟩ := outcome
    obtain ⟨es, taken⟩ := acceptLinks_chain accepted
    rw [accepted] at returns
    cases result with
    | error f =>
      cases returns
      exact (Step.begin bound).cons_chain ⟨es, taken⟩
    | ok =>
      cases returns
      exact (Step.begin bound).cons_chain
        ⟨es ++ [.ordered], chain_append.2 ⟨_, taken, .one .order⟩⟩

theorem chain_of_call {call : Call} (returns : call.apply r = some r') :
    ∃ es, Chain Step es ⟨r, none⟩ ⟨r', none⟩ := by
  cases call with
  | bind network address =>
    cases returns
    cases comes : (Inbound.bind network address).outcome r with
    | mk result u =>
      cases result with
      | ok => exact ⟨_, .one (.bind comes)⟩
      | error f => exact ⟨_, .one (.bindRefused comes)⟩
  | expect arrival =>
    cases returns
    exact ⟨_, .one .come⟩
  | accept n =>
    obtain ⟨⟨result, u⟩, accepted, rfl⟩ := Option.map_eq_some_iff.1 returns
    exact accept_chain accepted
  | finalize =>
    cases returns
    exact ⟨_, .one .finalize⟩

theorem chain_of_calls {calls : List Call} (returns : calls.foldlM Call.apply r = some r') :
    ∃ es, Chain Step es ⟨r, none⟩ ⟨r', none⟩ := by
  induction calls generalizing r with
  | nil =>
    cases returns
    exact ⟨[], rfl⟩
  | cons call calls ih =>
    obtain ⟨u, first, later⟩ := Option.bind_eq_some_iff.1 returns
    obtain ⟨es, now⟩ := chain_of_call first
    obtain ⟨es', then'⟩ := ih later
    exact ⟨es ++ es', chain_append.2 ⟨_, now, then'⟩⟩

/-- No two links have the same sender, and the senders are those who were accepted since the links
were last closed. They ascend up to the last call that accepted everyone it was to accept; who was
accepted after that, by a call that was refused or is still at it, stands behind them in the order of
coming. Any calls made next are steps again. -/
theorem senders_after_run (options : LinkOptions) (run : Chain Step es ⟨start options, none⟩ s) :
    s.receiver.senders.Nodup ∧ s.receiver.senders.Perm (roll es).ids ∧
    s.receiver.senders = sortIds (roll es).settled ++ (roll es).recent ∧
    (s.receiver.senders.Pairwise (· < ·) ↔ (roll es).recent.Pairwise (· < ·) ∧
      ∀ a ∈ (roll es).settled, ∀ b ∈ (roll es).recent, a < b) ∧
    (s.due = none → (∀ f, .refused f ∉ es) → s.receiver.senders.Pairwise (· < ·)) ∧
    ∀ (calls : List Call) (r : Inbound), s.due = none →
      calls.foldlM Call.apply s.receiver = some r →
      ∃ later, Chain Step (es ++ later) ⟨start options, none⟩ ⟨r, none⟩ := by
  have h : Enrolled ([] ++ es) s :=
    run.keeps (enrolled_start options) fun _ _ _ _ before step => before.step step
  rw [List.nil_append] at h
  have distinct : (roll es).settled.Nodup := by
    have all : (roll es).listed.Nodup := h.senders_eq ▸ h.nodup
    exact (List.nodup_append.1 ((roll es).listed_perm.nodup_iff.1 all)).1
  have ascends : s.receiver.senders.Pairwise (· < ·) ↔ (roll es).recent.Pairwise (· < ·) ∧
      ∀ a ∈ (roll es).settled, ∀ b ∈ (roll es).recent, a < b := by
    rw [h.senders_eq, Roll.listed, List.pairwise_append, and_iff_right (pairwise_lt_sortIds distinct)]
    simp only [(sortIds_perm _).mem_iff]
  refine ⟨h.nodup, h.senders_eq ▸ (roll es).listed_perm, h.senders_eq, ascends,
    fun idle unrefused => ?_, fun calls r idle returns => ?_⟩
  · rw [ascends, h.settled idle unrefused]
    exact ⟨.nil, nofun⟩
  · obtain ⟨receiver, due⟩ := s
    obtain rfl : due = none := idle
    obtain ⟨later, more⟩ := chain_of_calls returns
    exact ⟨later, chain_append.2 ⟨_, run, more⟩⟩

/-- Somebody who introduces themselves and sends nothing more. -/
def introduced (id : UInt8) : Arrival := .stream [[id, 0, 0, 0]]

theorem introduced_introduction (id : UInt8) :
    (introduced id).introduction = .ok (Wire.toInt32 [id, 0, 0, 0], []) := by
  have whole : Frame.fill 4 [[id, 0, 0, 0]] = ([id, 0, 0, 0], []) := by
    simp [Frame.fill, Frame.read]
  rw [introduced, Arrival.introduction, whole]
  rfl

/-- Sender 5 comes, then 3, then 5 again; all three are to be accepted in one call. -/
def crossedCalls : List Call :=
  [.bind .reachable "socket://127.0.0.1:0", .expect (introduced 5), .expect (introduced 3),
    .expect (introduced 5), .accept 3]

def crossedLink (sender : PeerId) : InboundLink := ⟨sender, [], .empty 67108864, none⟩

def crossedReceiver (backlog : List Arrival) (links : List InboundLink) : Inbound :=
  ⟨.default, true, backlog, links, 0⟩

theorem crossed_greets (backlog : List Arrival) :
    (crossedReceiver backlog []).greet (introduced 5) = .ok (crossedLink 5) ∧
    (crossedReceiver backlog [crossedLink 5]).greet (introduced 3) = .ok (crossedLink 3) ∧
    (crossedReceiver backlog [crossedLink 5, crossedLink 3]).greet (introduced 5) =
      .error (.repeatedSender 5) := by
  refine ⟨?_, ?_, ?_⟩ <;> rw [greet, introduced_introduction] <;> rfl

/-- The second link of sender 5 is refused, and then the other two are not in order. -/
theorem crossed_senders : (crossedCalls.foldlM Call.apply (start .default)).map senders = some [5, 3] ∧
    ¬([5, 3] : List PeerId).Pairwise (· < ·) := by
  have first : (crossedReceiver [introduced 5, introduced 3, introduced 5] []).acceptLinks 3 =
      (crossedReceiver [introduced 3, introduced 5] [crossedLink 5]).acceptLinks 2 :=
    acceptLinks_accept rfl (crossed_greets _).1
  have second : (crossedReceiver [introduced 3, introduced 5] [crossedLink 5]).acceptLinks 2 =
      (crossedReceiver [introduced 5] [crossedLink 5, crossedLink 3]).acceptLinks 1 :=
    acceptLinks_accept rfl (crossed_greets _).2.1
  have third : (crossedReceiver [introduced 5] [crossedLink 5, crossedLink 3]).acceptLinks 1 =
      some (.error (.repeatedSender 5), crossedReceiver [] [crossedLink 5, crossedLink 3]) :=
    acceptLinks_refuse rfl (crossed_greets _).2.2
  have calls : crossedCalls.foldlM Call.apply (start .default) =
      (((crossedReceiver [introduced 5, introduced 3, introduced 5] []).accept 3).map Prod.snd).bind
        some := rfl
  refine ⟨?_, by decide⟩
  rw [calls, accept, first, second, third]
  rfl

def crossedEvents : List Event :=
  [.bound, .came (introduced 5), .came (introduced 3), .came (introduced 5), .began 3, .accepted 5,
    .accepted 3, .refused (.repeatedSender 5)]

theorem crossed_run : Chain Step crossedEvents ⟨start .default, none⟩
    ⟨crossedReceiver [] [crossedLink 5, crossedLink 3], none⟩ := by
  refine ⟨_, @Step.bind .reachable "socket://127.0.0.1:0" _ _ rfl, _, .come, _, .come, _, .come,
    _, .begin rfl, ?_⟩
  refine ⟨_, @Step.accept _ _ _ _ (crossedLink 5) rfl (crossed_greets _).1, ?_⟩
  refine ⟨_, @Step.accept _ _ _ _ (crossedLink 3) rfl (crossed_greets _).2.1, ?_⟩
  exact ⟨_, .refuse rfl (crossed_greets _).2.2, rfl⟩

theorem crossed_roll : Chain Step crossedEvents ⟨start .default, none⟩
      ⟨crossedReceiver [] [crossedLink 5, crossedLink 3], none⟩ ∧
    ([5, 3] : List PeerId).Perm (roll crossedEvents).ids ∧ (roll crossedEvents).recent = [5, 3] :=
  ⟨crossed_run, (senders_after_run .default crossed_run).2.1, rfl⟩

end Intake

end GraphRelay.Inbound
