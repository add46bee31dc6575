import GraphRelay.Proofs.Queue.Runs
import GraphRelay.Queue.Custody
import Mathlib.Data.List.Perm.Basic
import Mathlib.Data.List.Nodup

/-!
# Every message is given up once

Messages are made, put into the queue, taken out of it and given up, by any number of hands. Each of
them is in one place at a time, and its release is announced at the moment it has none any more.
-/
open scoped List

namespace GraphRelay

/-- The message that an operation gave up. -/
def Queue.Event.rejected : Queue.Event → List Message
  | .refused m _ => [m]
  | _ => []

namespace Custody

inductive Event where
  | made (m : Message)
  | operated (e : Queue.Event)
  /-- Its holder dropped the message or turned it into bytes. -/
  | gaveUp (m : Message)
  deriving DecidableEq, Repr

namespace Event

def created : Event → List Message
  | .made m => [m]
  | _ => []

/-- The message that is nobody's from here on. -/
def abandoned : Event → List Message
  | .operated e => e.rejected
  | .gaveUp m => [m]
  | .made _ => []

def operation : Event → List Queue.Event
  | .operated e => [e]
  | _ => []

end Event

/-- An operation that takes a message takes it out of the hands, and what it delivers gets into them.
An operation that has to wait has not been made, and its message is in the hands of who waits. -/
inductive Act : Custody → Event → Custody → Prop where
  | make {c : Custody} {m : Message} : Act c (.made m) { c with held := c.held ++ [m] }
  | operate {c : Custody} {e : Queue.Event} {q : Queue} {kept : List Message} :
      Queue.Step c.queue e q → c.held ~ e.incoming ++ e.rejected ++ kept →
      Act c (.operated e) (giveUp { c with queue := q, held := kept ++ e.outgoing } e.rejected)
  | giveUp {c : Custody} {m : Message} {kept : List Message} :
      c.held ~ m :: kept → Act c (.gaveUp m) (giveUp { c with held := kept } [m])

inductive Run : Custody → List Event → Custody → Prop where
  | nil {c : Custody} : Run c [] c
  | cons {c c' c'' : Custody} {e : Event} {es : List Event} :
      Act c e c' → Run c' es c'' → Run c (e :: es) c''

def made (es : List Event) : List Message := es.flatMap Event.created

def givenUp (es : List Event) : List Message := es.flatMap Event.abandoned

def operations (es : List Event) : List Queue.Event := es.flatMap Event.operation

variable {c c' c'' : Custody} {e : Event} {es es' : List Event} {m : Message} {q : Queue}

theorem tokens_append (ms ms' : List Message) : tokens (ms ++ ms') = tokens ms ++ tokens ms' :=
  List.filterMap_append

@[simp] theorem tokens_nil : tokens [] = [] := rfl

@[simp] theorem giveUp_nil (c : Custody) : c.giveUp [] = c := by simp [giveUp]

theorem giveUp_released (c : Custody) (ms : List Message) :
    (c.giveUp ms).released = c.released ++ tokens ms := rfl

theorem giveUp_append (c : Custody) (ms ms' : List Message) :
    c.giveUp (ms ++ ms') = (c.giveUp ms).giveUp ms' := by
  simp [giveUp, tokens_append]

/-- Where the messages are that nobody has given up. -/
def owned (c : Custody) : List Message := c.queue.items ++ c.held

theorem Act.released_eq (act : Act c e c') : c'.released = c.released ++ tokens e.abandoned := by
  cases act with
  | make => exact (List.append_nil _).symm
  | operate | giveUp => rfl

/-- An operation on the queue only moves messages about. -/
theorem perm_of_step {e : Queue.Event} {kept : List Message} (step : Queue.Step c.queue e q)
    (hands : c.held ~ e.incoming ++ e.rejected ++ kept) :
    e.rejected ++ (q.items ++ (kept ++ e.outgoing)) ~ c.owned := by
  calc e.rejected ++ (q.items ++ (kept ++ e.outgoing))
      _ ~ e.rejected ++ (e.outgoing ++ q.items ++ kept) := by
          refine .append_left _ ?_
          rw [← List.append_assoc, List.append_assoc e.outgoing]
          exact List.perm_append_comm
      _ = e.rejected ++ (c.queue.items ++ e.incoming ++ kept) := by rw [step.conserves]
      _ ~ c.queue.items ++ (e.incoming ++ e.rejected ++ kept) := by
          rw [List.append_assoc, List.append_assoc]
          refine List.perm_append_comm_assoc _ _ _ |>.trans (.append_left _ ?_)
          exact List.perm_append_comm_assoc _ _ _
      _ ~ c.queue.items ++ c.held := hands.symm.append_left _

theorem Act.perm (act : Act c e c') :
    e.abandoned ++ c'.owned ~ c.owned ++ e.created := by
  cases act with
  | make => simp [owned, Event.abandoned, Event.created]
  | operate step hands => exact (perm_of_step step hands).trans (.of_eq (List.append_nil _).symm)
  | @giveUp m kept hands =>
    calc m :: (c.queue.items ++ kept)
        _ ~ c.queue.items ++ (m :: kept) := List.perm_middle.symm
        _ ~ c.queue.items ++ c.held := hands.symm.append_left _
        _ = c.owned ++ [] := (List.append_nil _).symm

namespace Run

theorem append (run : Run c es c') (later : Run c' es' c'') : Run c (es ++ es') c'' := by
  induction run with
  | nil => exact later
  | cons act _ ih => exact .cons act (ih later)

theorem released_eq (run : Run c es c') : c'.released = c.released ++ tokens (givenUp es) := by
  induction run with
  | nil => exact (List.append_nil _).symm
  | cons act _ ih =>
    rw [ih, act.released_eq, List.append_assoc, ← tokens_append, givenUp, givenUp, List.flatMap_cons]

/-- What was there and what was made is what was given up and what is still owned. -/
theorem perm (run : Run c es c') : givenUp es ++ c'.owned ~ c.owned ++ made es := by
  induction run with
  | @nil c => exact .of_eq (List.append_nil _).symm
  | @cons c c' c'' e es act _ ih =>
    calc givenUp (e :: es) ++ c''.owned
        _ = e.abandoned ++ (givenUp es ++ c''.owned) := by
            rw [givenUp, List.flatMap_cons, List.append_assoc, givenUp]
        _ ~ e.abandoned ++ (c'.owned ++ made es) := ih.append_left _
        _ ~ (c.owned ++ e.created) ++ made es := by
            rw [← List.append_assoc]
            exact act.perm.append_right _
        _ = c.owned ++ made (e :: es) := by rw [List.append_assoc, made, made, List.flatMap_cons]

theorem queue (run : Run c es c') : Queue.Run c.queue (operations es) c'.queue := by
  induction run with
  | nil => exact .nil
  | cons act _ ih =>
    cases act with
    | make | giveUp => exact ih
    | operate step => exact .cons step ih

end Run

/-- The message that a step of a session makes. -/
def Step.pushed : Step → List Message
  | .push m => [m]
  | _ => []

/-- What a consumer does next with a message that was delivered. -/
def Use.events (use : Use) (m : Message) : List Event :=
  match use with
  | .keep => []
  | .drop | .unwrap => [.gaveUp m]

/-- What happens in a step that has an outcome, where `held` is kept before. -/
def Step.events (held : List Message) : Step → Outcome → List Event
  | .push m, .done => [.made m, .operated (.accepted m)]
  | .push m, .refused f => [.made m, .operated (.refused m f)]
  | .push m, _ => [.made m, .gaveUp m]
  | .pop use, .popped m | .tryPop use, .popped m => .operated (.delivered m) :: use.events m
  | .pop _, .nothing => [.operated .ended]
  | .pop _, _ => []
  | .tryPop _, _ => [.operated .missed]
  | .close, _ => [.operated .closed]
  | .dropHeld, _ => held.map .gaveUp

/-- What happens in the steps of a session, one after the other. -/
def session (c : Custody) : List Step → List Event
  | [] => []
  | s :: steps => s.events c.held (c.step s).2 ++ (c.step s).1.session steps

theorem act_of_step {e : Queue.Event} {kept : List Message} (step : Queue.Step c.queue e q)
    (hands : c.held ~ e.incoming ++ e.rejected ++ kept)
    (left : giveUp { c with queue := q, held := kept ++ e.outgoing } e.rejected = c') :
    Act c (.operated e) c' :=
  left ▸ .operate step hands

/-- An operation that neither takes nor delivers anything. -/
theorem act_of_idle {e : Queue.Event} (step : Queue.Step c.queue e q) (takes : e.incoming = [])
    (refuses : e.rejected = []) (delivers : e.outgoing = []) :
    Act c (.operated e) { c with queue := q } := by
  have hands : c.held ~ e.incoming ++ e.rejected ++ c.held := by rw [takes, refuses]; exact .refl _
  exact act_of_step step hands (by simp [refuses, delivers])

theorem run_push (c : Custody) (m : Message) :
    Run c ((Step.push m).events c.held (c.step (.push m)).2) (c.step (.push m)).1 := by
  have hands : c.held ++ [m] ~ m :: c.held := List.perm_append_singleton m c.held
  rw [step]
  split
  · next q pushed =>
    have put : Act { c with held := c.held ++ [m] } (.operated (.accepted m))
        { c with queue := q } :=
      act_of_step (.accept pushed) hands (by simp [Queue.Event.rejected, Queue.Event.outgoing])
    exact .cons .make (.cons put .nil)
  · next f refused =>
    have lost : Act { c with held := c.held ++ [m] } (.operated (.refused m f)) (c.giveUp [m]) :=
      act_of_step (.refuse refused) hands (by simp [Queue.Event.rejected, Queue.Event.outgoing])
    exact .cons .make (.cons lost .nil)
  · next waits => exact .cons .make (.cons (.giveUp hands) .nil)

theorem run_receive (step : Queue.Step c.queue (.delivered m) q) (use : Use) :
    Run c (.operated (.delivered m) :: use.events m) (c.receive m q use) := by
  have taken : Act c (.operated (.delivered m)) { c with queue := q, held := c.held ++ [m] } :=
    act_of_step step (.refl _) (giveUp_nil _)
  have hands : c.held ++ [m] ~ m :: c.held := List.perm_append_singleton m c.held
  cases use with
  | keep => exact .cons taken .nil
  | drop | unwrap => exact .cons taken (.cons (.giveUp hands) .nil)

theorem run_giveUp_held (c : Custody) :
    Run c (c.held.map .gaveUp) (giveUp { c with held := [] } c.held) := by
  obtain ⟨q, held, released⟩ := c
  induction held generalizing released with
  | nil => exact giveUp_nil _ ▸ .nil
  | cons m held ih =>
    have rest := ih (released ++ tokens [m])
    rw [show giveUp ⟨q, [], released⟩ (m :: held) = _ from giveUp_append _ [m] held]
    exact .cons (.giveUp (.refl _)) rest

theorem run_step (c : Custody) (s : Step) : Run c (s.events c.held (c.step s).2) (c.step s).1 := by
  cases s with
  | push m => exact run_push c m
  | pop use =>
    rw [step]
    split
    · next m q popped => exact run_receive (.deliver popped) use
    · next saw => exact .cons (act_of_idle (.finish saw) rfl rfl rfl) .nil
    · next waits => exact .nil
  | tryPop use =>
    rw [step]
    split
    · next m q taken => exact run_receive (.deliverNow taken) use
    · next none => exact .cons (act_of_idle (.miss none) rfl rfl rfl) .nil
  | close => exact .cons (act_of_idle .close rfl rfl rfl) .nil
  | dropHeld => exact run_giveUp_held c

theorem run_session (c : Custody) (steps : List Step) : Run c (c.session steps) (c.run steps) := by
  induction steps generalizing c with
  | nil => exact .nil
  | cons s steps ih => exact (run_step c s).append (ih (c.step s).1)

theorem made_events (held : List Message) (s : Step) (o : Outcome) :
    made (s.events held o) = s.pushed := by
  cases s with
  | push m => cases o <;> rfl
  | pop use | tryPop use =>
    cases o with
    | popped m => cases use <;> rfl
    | _ => rfl
  | close => rfl
  | dropHeld => simp [Step.events, made, List.flatMap_map, Event.created, Step.pushed]

theorem made_session (c : Custody) (steps : List Step) :
    made (c.session steps) = steps.flatMap Step.pushed := by
  induction steps generalizing c with
  | nil => rfl
  | cons s steps ih =>
    rw [session, made, List.flatMap_append, List.flatMap_cons, ← ih (c.step s).1,
      ← made_events c.held s (c.step s).2, made, made]

/-- What is known of the releases after a run, and after everything left is given up as well. -/
structure Settled (es : List Event) (c : Custody) : Prop where
  released_eq : c.released = tokens (givenUp es)
  released_nodup : c.released.Nodup
  mem_released_iff : ∀ t, t ∈ c.released ↔
    t ∈ tokens (made es) ∧ t ∉ tokens c.queue.items ∧ t ∉ tokens c.held
  queue_eq : Queue.delivered (operations es) ++ c.queue.items = Queue.accepted (operations es)
  finish_released : c.finish.released = c.released ++ tokens c.held ++ tokens c.queue.items
  finish_perm : c.finish.released ~ tokens (made es)
  finish_nodup : c.finish.released.Nodup
  finish_owned : c.finish.owned = []

/-- Every token made is announced, in the queue or in some hands. -/
theorem Run.tokens_perm {capacity : Nat} (run : Run (start capacity) es c) :
    c.released ++ (tokens c.queue.items ++ tokens c.held) ~ tokens (made es) := by
  have places : tokens (givenUp es ++ c.owned) ~ tokens (made es) := run.perm.filterMap _
  have announced : c.released = tokens (givenUp es) := run.released_eq
  rwa [tokens_append, owned, tokens_append, ← announced] at places

theorem Run.settled {capacity : Nat} (run : Run (start capacity) es c)
    (own : (tokens (made es)).Nodup) : Settled es c := by
  have places := run.tokens_perm
  have apart := places.symm.nodup own
  have ended : c.finish.released ~ tokens (made es) := by
    refine .trans ?_ places
    rw [finish, giveUp_released, giveUp_released, List.append_assoc]
    exact .append_left _ List.perm_append_comm
  refine ⟨run.released_eq, apart.of_append_left, fun t => ?_, run.queue.conserves, rfl, ended,
    ended.symm.nodup own, rfl⟩
  rw [← places.mem_iff, List.mem_append, List.mem_append]
  constructor
  · intro announced
    have elsewhere := List.disjoint_of_nodup_append apart announced
    rw [List.mem_append] at elsewhere
    exact ⟨.inl announced, not_or.1 elsewhere⟩
  · rintro ⟨announced | queued | kept, outside, free⟩
    · exact announced
    · exact absurd queued outside
    · exact absurd kept free

/-- However messages go from hand to hand, each release is announced once: when the queue refuses the
message, when its holder drops it or turns it into bytes, or with the queue at the end, and never while
the message is in the queue or in some hands. A queue that is given up announces the oldest first. Every
session is such a run, in which each step is what its outcome says. -/
theorem released_exactly_once (capacity : Nat) :
    (∀ es c, Run (start capacity) es c → (tokens (made es)).Nodup → Settled es c) ∧
    ∀ steps, Run (start capacity) ((start capacity).session steps) ((start capacity).run steps) ∧
      made ((start capacity).session steps) = steps.flatMap Step.pushed :=
  ⟨fun _ _ run own => run.settled own, fun steps => ⟨run_session _ steps, made_session _ steps⟩⟩

/-- Three bytes of room for a message that is kept, one that can never fit, one that is dropped, one
that stays in the queue and one that comes too late. -/
def fiveEvents : List Event :=
  [.made ⟨[1, 2], some 1⟩, .operated (.accepted ⟨[1, 2], some 1⟩),
    .made ⟨[0, 0, 0, 0], some 2⟩, .operated (.refused ⟨[0, 0, 0, 0], some 2⟩ (.oversized 4 3)),
    .made ⟨[3], some 3⟩, .operated (.accepted ⟨[3], some 3⟩),
    .operated (.delivered ⟨[1, 2], some 1⟩), .operated (.delivered ⟨[3], some 3⟩),
    .gaveUp ⟨[3], some 3⟩, .made ⟨[], some 4⟩, .operated (.accepted ⟨[], some 4⟩),
    .operated .closed, .made ⟨[5], some 5⟩, .operated (.refused ⟨[5], some 5⟩ .queueClosed)]

def fiveLeft : Custody := ⟨⟨3, [⟨[], some 4⟩], 0, true⟩, [⟨[1, 2], some 1⟩], [2, 3, 5]⟩

theorem run_fiveEvents : Run (start 3) fiveEvents fiveLeft := by
  have kept (m : Message) (held : List Message) : held ++ [m] ~ m :: held :=
    List.perm_append_singleton m held
  refine .cons .make (.cons (act_of_step (.accept rfl) (kept _ []) rfl) ?_)
  refine .cons .make (.cons (act_of_step (.refuse rfl) (kept _ []) rfl) ?_)
  refine .cons .make (.cons (act_of_step (.accept rfl) (kept _ []) rfl) ?_)
  refine .cons (act_of_step (.deliver rfl) (.refl _) rfl) ?_
  refine .cons (act_of_step (.deliverNow rfl) (.refl _) rfl) (.cons (.giveUp (kept _ _)) ?_)
  refine .cons .make (.cons (act_of_step (.accept rfl) (kept _ _) rfl) ?_)
  refine .cons (act_of_idle .close rfl rfl rfl) (.cons .make (.cons ?_ .nil))
  exact act_of_step (.refuse rfl) (kept _ _) rfl

theorem fiveEvents_released : Run (start 3) fiveEvents fiveLeft ∧
    fiveLeft.finish.released = [2, 3, 5, 1, 4] ∧
    fiveLeft.finish.released ~ tokens (made fiveEvents) :=
  ⟨run_fiveEvents, rfl,
    ((released_exactly_once 3).1 _ _ run_fiveEvents (by decide)).finish_perm⟩

end Custody

end GraphRelay
