import GraphRelay.Link.Inbound
import GraphRelay.Link.Outbound
import GraphRelay.Proofs.Link.Framing
import GraphRelay.Proofs.Queue.Runs

/-!
# What a link delivers

The reader of a link moves frames from the stream into the queue while the receiver takes them out, each
whenever it can. The receiver gets what the stream carries: a frame that the limit admits always fits
the queue, so the two bounds never contradict each other.
-/
namespace GraphRelay

theorem LinkOptions.frameLimit_le (o : LinkOptions) : o.frameLimit ≤ o.queueCapacity := by
  unfold frameLimit
  split
  · exact Nat.min_le_right ..
  · exact Nat.le_refl _

namespace InboundLink

open GraphRelay.Frame (Proper Carries)

variable {limit n : Nat} {link link' : InboundLink} {payload : Bytes} {frames taken : List Bytes}
variable {failure : Option Fault} {m : Message} {q : Queue}

/-- A step of the reader, or of the receiver, and what the receiver took in it. -/
inductive Step (limit : Nat) : InboundLink → List Bytes → InboundLink → Prop where
  | advance {link link' : InboundLink} : link.advance limit = some link' → Step limit link [] link'
  | take {link : InboundLink} {m : Message} {q : Queue} : link.queue.takeFirst = some (m, q) →
      Step limit link [m.payload] { link with queue := q }

/-- So many steps in any order, and all that the receiver took. -/
inductive Run (limit : Nat) : Nat → InboundLink → List Bytes → InboundLink → Prop where
  | nil {link : InboundLink} : Run limit 0 link [] link
  | cons {n : Nat} {link link' link'' : InboundLink} {taken later : List Bytes} :
      Step limit link taken link' → Run limit n link' later link'' →
      Run limit (n + 1) link (taken ++ later) link''

/-- The reader queues the next payload or is through. -/
theorem advance_cases (moved : link.advance limit = some link') :
    (∃ failure, link' = link.finish failure) ∨ ∃ payload reads q,
      link.queue.push (.ofBytes payload) = .accepted q ∧
      link' = { link with reads := reads, queue := q } := by
  rw [advance] at moved
  split at moved
  · cases moved
  split at moved
  · exact .inl ⟨none, (Option.some.inj moved).symm⟩
  · next f _ => exact .inl ⟨some f, (Option.some.inj moved).symm⟩
  next payload reads _ =>
  split at moved
  · next q pushed => exact .inr ⟨payload, reads, q, pushed, (Option.some.inj moved).symm⟩
  · next f _ => exact .inl ⟨some f, (Option.some.inj moved).symm⟩
  · cases moved

theorem advance_sender (moved : link.advance limit = some link') : link'.sender = link.sender := by
  rcases advance_cases moved with ⟨failure, rfl⟩ | ⟨payload, reads, q, -, rfl⟩ <;> rfl

theorem advance_ending (opened : link.queue.closed = false) (proper : Proper link.reads)
    (rest : Carries limit link.reads.flatten [] failure) :
    link.advance limit = some (link.finish failure) := by
  rw [advance, opened, rest.next_ending proper]
  cases failure <;> rfl

theorem advance_of_frame {reads : Frame.Reads} (opened : link.queue.closed = false)
    (found : Frame.next limit link.reads = .frame payload reads) : link.advance limit =
      match link.queue.push (.ofBytes payload) with
      | .accepted q => some { link with reads := reads, queue := q }
      | .refused f => some (link.finish (some f))
      | .waits => none := by
  rw [advance, opened, found]
  rfl

/-- An admitted frame goes into the queue, at once or when there is room. -/
theorem advance_frame (opened : link.queue.closed = false) (proper : Proper link.reads)
    (bound : limit ≤ link.queue.capacity)
    (rest : Carries limit link.reads.flatten (payload :: frames) failure) :
    ∃ reads, Proper reads ∧ reads.flatten.length + 8 ≤ link.reads.flatten.length ∧
      Carries limit reads.flatten frames failure ∧
      ((∃ q, link.queue.push (.ofBytes payload) = .accepted q ∧
          link.advance limit = some { link with reads := reads, queue := q }) ∨
        link.queue.push (.ofBytes payload) = .waits ∧ link.advance limit = none) := by
  obtain ⟨reads, found, kept, shorter, later⟩ := rest.next_frame proper
  have fits : payload.length ≤ limit := (rest.admissible payload (by simp)).1
  refine ⟨reads, kept, shorter, later, ?_⟩
  rw [advance_of_frame opened found]
  cases pushed : link.queue.push (.ofBytes payload) with
  | accepted q => exact .inl ⟨q, rfl, rfl⟩
  | waits => exact .inr ⟨rfl, rfl⟩
  | refused f =>
    exfalso
    rcases Queue.push_eq_refused_iff.1 pushed with ⟨long, -⟩ | ⟨-, closed, -⟩
    · have long : link.queue.capacity < payload.length := long
      omega
    · simp [opened] at closed

/-- What the receiver is still to get from a link, and why the link will have failed then. -/
structure Owes (limit : Nat) (link : InboundLink) (frames : List Bytes) (failure : Option Fault) :
    Prop where
  accounted : link.queue.Accounted
  limit_le : limit ≤ link.queue.capacity
  proper : Proper link.reads
  of_open : link.queue.closed = false → ∃ later,
    Carries limit link.reads.flatten later failure ∧ frames = link.queue.payloads ++ later
  of_closed : link.queue.closed = true → frames = link.queue.payloads ∧ link.failure = failure

/-- The reader closes the queue when no frame is left, and queues the next one before. -/
theorem Owes.advance_eq_some (h : link.Owes limit frames failure)
    (got : link.advance limit = some link') : link.queue.closed = false ∧
      ((frames = link.queue.payloads ∧ link' = link.finish failure) ∨
        ∃ payload reads q later, link.queue.push (.ofBytes payload) = .accepted q ∧
          link' = { link with reads := reads, queue := q } ∧ Proper reads ∧
          reads.flatten.length + 8 ≤ link.reads.flatten.length ∧
          Carries limit reads.flatten later failure ∧
          frames = link.queue.payloads ++ payload :: later) := by
  have opened : link.queue.closed = false := by
    cases closed : link.queue.closed with
    | false => rfl
    | true => simp [InboundLink.advance, closed] at got
  refine ⟨opened, ?_⟩
  obtain ⟨later, rest, rfl⟩ := h.of_open opened
  cases later with
  | nil =>
    rw [advance_ending opened h.proper rest, Option.some.injEq] at got
    exact .inl ⟨List.append_nil _, got.symm⟩
  | cons payload later =>
    obtain ⟨reads, kept, shorter, rest, ⟨q, pushed, moved⟩ | ⟨-, stuck⟩⟩ :=
      advance_frame opened h.proper h.limit_le rest
    · rw [moved, Option.some.injEq] at got
      exact .inr ⟨payload, reads, q, later, pushed, got.symm, kept, shorter, rest, rfl⟩
    · rw [stuck] at got
      cases got

theorem Owes.advance (h : link.Owes limit frames failure) (got : link.advance limit = some link') :
    link'.Owes limit frames failure := by
  obtain ⟨opened, ⟨rfl, rfl⟩ | ⟨payload, reads, q, later, pushed, rfl, kept, -, rest, rfl⟩⟩ :=
    h.advance_eq_some got
  · exact ⟨h.accounted.close, h.limit_le, nofun, nofun, fun _ => ⟨rfl, rfl⟩⟩
  · obtain ⟨-, -, same⟩ := Queue.push_eq_accepted_iff.1 pushed
    have still : q.closed = false := by rw [same]; exact opened
    have room : q.capacity = link.queue.capacity := by rw [same]
    have held : q.payloads = link.queue.payloads ++ [payload] := by
      rw [same]
      simp [Queue.payloads, Message.ofBytes]
    refine ⟨h.accounted.push pushed, room ▸ h.limit_le, kept, fun _ => ⟨later, rest, ?_⟩,
      fun closed => ?_⟩
    · rw [held, List.append_assoc, List.singleton_append]
    · simp [still] at closed

theorem Owes.take (h : link.Owes limit frames failure)
    (taken : link.queue.takeFirst = some (m, q)) :
    ∃ later, frames = m.payload :: later ∧
      ({ link with queue := q } : InboundLink).Owes limit later failure := by
  have front := (Queue.takeFirst_eq_some_iff.1 taken).1
  have still := Queue.takeFirst_closed taken
  have room := Queue.takeFirst_capacity taken
  have held : link.queue.payloads = m.payload :: q.payloads := by
    rw [Queue.payloads, front, List.map_cons, Queue.payloads]
  have counted := h.accounted.takeFirst taken
  cases closed : link.queue.closed with
  | false =>
    obtain ⟨later, rest, rfl⟩ := h.of_open closed
    refine ⟨q.payloads ++ later, by rw [held, List.cons_append], counted, room ▸ h.limit_le,
      h.proper, fun _ => ⟨later, rest, rfl⟩, fun shut => ?_⟩
    rw [still, closed] at shut
    cases shut
  | true =>
    obtain ⟨rfl, failed⟩ := h.of_closed closed
    refine ⟨q.payloads, held, counted, room ▸ h.limit_le, h.proper, fun opened => ?_,
      fun _ => ⟨rfl, failed⟩⟩
    rw [still, closed] at opened
    cases opened

/-- How many steps are left at most. -/
def left (link : InboundLink) : Nat :=
  link.reads.flatten.length + link.queue.items.length + (!link.queue.closed).toNat

theorem Owes.step (h : link.Owes limit frames failure) (step : Step limit link taken link') :
    link'.left < link.left ∧ ∃ later, frames = taken ++ later ∧ link'.Owes limit later failure := by
  cases step with
  | advance got =>
    refine ⟨?_, frames, rfl, h.advance got⟩
    obtain ⟨opened, ⟨-, rfl⟩ | ⟨payload, reads, q, later, pushed, rfl, -, shorter, -⟩⟩ :=
      h.advance_eq_some got
    · simp only [left, finish, Queue.close, opened, List.flatten_nil, List.length_nil,
        Bool.not_false, Bool.not_true, Bool.toNat_true, Bool.toNat_false]
      omega
    · obtain ⟨-, -, rfl⟩ := Queue.push_eq_accepted_iff.1 pushed
      simp only [left, List.length_append, List.length_cons, List.length_nil]
      omega
  | @take m q taken =>
    obtain ⟨later, rfl, owes⟩ := h.take taken
    refine ⟨?_, later, rfl, owes⟩
    have front := (Queue.takeFirst_eq_some_iff.1 taken).1
    simp only [left, front, Queue.takeFirst_closed taken, List.length_cons]
    omega

theorem Owes.run (h : link.Owes limit frames failure) (run : Run limit n link taken link') :
    n + link'.left ≤ link.left ∧ ∃ later, frames = taken ++ later ∧
      link'.Owes limit later failure := by
  induction run generalizing frames with
  | nil => exact ⟨Nat.le_of_eq (Nat.zero_add _), frames, rfl, h⟩
  | cons step _ ih =>
    obtain ⟨less, later, rfl, between⟩ := h.step step
    obtain ⟨bound, rest, rfl, owes⟩ := ih between
    exact ⟨by omega, rest, (List.append_assoc ..).symm, owes⟩

/-- Only when all is delivered can neither the reader nor the receiver get on. -/
theorem Owes.exists_step (h : link.Owes limit frames failure)
    (unfinished : link.queue.isFinished = false) :
    ∃ taken link', Step limit link taken link' := by
  cases found : link.queue.takeFirst with
  | some taken => exact ⟨_, _, .take found⟩
  | none =>
    have empty : link.queue.items = [] := Queue.takeFirst_eq_none_iff.1 found
    have opened : link.queue.closed = false := by simpa [Queue.isFinished, empty] using unfinished
    obtain ⟨later, rest, -⟩ := h.of_open opened
    cases later with
    | nil => exact ⟨_, _, .advance (advance_ending opened h.proper rest)⟩
    | cons payload later =>
      obtain ⟨reads, -, -, -, ⟨q, -, moved⟩ | ⟨full, -⟩⟩ :=
        advance_frame opened h.proper h.limit_le rest
      · exact ⟨_, _, .advance moved⟩
      · exact absurd full (h.accounted.push_ne_waits empty)

theorem Owes.eq_nil_of_isFinished (h : link.Owes limit frames failure)
    (finished : link.queue.isFinished = true) : frames = [] := by
  obtain ⟨closed, empty⟩ : link.queue.closed = true ∧ link.queue.items = [] := by
    simpa [Queue.isFinished] using finished
  rw [(h.of_closed closed).1, Queue.payloads, empty, List.map_nil]

theorem owes_fresh {sender : PeerId} {reads : Frame.Reads} {capacity : Nat} (proper : Proper reads)
    (bound : limit ≤ capacity) (carries : Carries limit reads.flatten frames failure) :
    Owes limit ⟨sender, reads, .empty capacity, none⟩ frames failure where
  accounted := Queue.accounted_empty capacity
  limit_le := bound
  proper := proper
  of_open _ := ⟨frames, carries, rfl⟩
  of_closed := nofun

/-- A link delivers what its stream carries, however the stream is split into reads and whenever the
reader and the receiver get on. That is one list of frames, none too long, and maybe a fault, which is
never one of the queue. Without a fault the frames are all there was on the stream. If the stream is what
the writer of a connection writes, the frames are its payloads up to the first that is too long, and the
fault says so. -/
theorem link_delivers (o : LinkOptions) (sender : PeerId) {reads : Frame.Reads}
    (proper : ∀ chunk ∈ reads, chunk ≠ []) :
    ∃ frames failure, Carries o.frameLimit reads.flatten frames failure ∧
      (∀ frames' failure', Carries o.frameLimit reads.flatten frames' failure' →
        frames' = frames ∧ failure' = failure) ∧
      Frame.readAll o.frameLimit reads = (frames, failure) ∧
      (∀ n taken link,
        Run o.frameLimit n ⟨sender, reads, .empty o.queueCapacity, none⟩ taken link →
        n ≤ reads.flatten.length + 1 ∧ taken <+: frames ∧
        (link.queue.isFinished = false → ∃ taken' link', Step o.frameLimit link taken' link') ∧
        (link.queue.closed = true → link.failure = failure) ∧
        (link.queue.isFinished = true → taken = frames)) ∧
      (∀ n capacity, failure ≠ some (.oversized n capacity)) ∧
      (failure = none ↔ ∃ payloads : List Bytes,
        (∀ payload ∈ payloads, payload.length ≤ o.frameLimit ∧ payload.length < addressable) ∧
        reads.flatten = Frame.encodeAll payloads) ∧
      (failure = none → Frame.encodeAll frames = reads.flatten) ∧
      ∀ c : Connection, (∀ m ∈ c.queue.items, m.length < addressable) →
        c.flush.written = c.written ++ reads.flatten →
        frames = c.queue.payloads.takeWhile (·.length ≤ o.frameLimit) ∧
        failure = (c.queue.payloads.find? (o.frameLimit < ·.length)).map
          (fun payload => .frameOversized payload.length o.frameLimit) ∧
        ∀ f, failure = some f → f.kind = .protocol := by
  obtain ⟨frames, failure, carries⟩ := Frame.exists_carries o.frameLimit reads.flatten
  have written : ∀ payloads : List Bytes, (∀ payload ∈ payloads, payload.length < addressable) →
      reads.flatten = Frame.encodeAll payloads →
      frames = payloads.takeWhile (·.length ≤ o.frameLimit) ∧
        failure = Frame.overrun o.frameLimit payloads := by
    intro payloads small whole
    obtain ⟨same, why⟩ := carries.unique proper (whole ▸ Frame.carries_encodeAll small)
    exact ⟨same.symm, why.symm⟩
  refine ⟨frames, failure, carries, fun _ _ other => carries.unique proper other,
    carries.readAll proper, fun n taken link run => ?_, carries.failure_ne,
    ⟨fun clean => ?_, fun ⟨payloads, fit, whole⟩ => ?_⟩, fun clean => ?_,
    fun c small flushed => ?_⟩
  · obtain ⟨bound, later, rfl, owes⟩ := (owes_fresh proper o.frameLimit_le carries).run run
    have start : left ⟨sender, reads, .empty o.queueCapacity, none⟩ = reads.flatten.length + 1 := rfl
    refine ⟨by omega, List.prefix_append .., owes.exists_step,
      fun closed => (owes.of_closed closed).2, fun finished => ?_⟩
    rw [owes.eq_nil_of_isFinished finished, List.append_nil]
  · subst clean
    exact ⟨frames, carries.admissible, carries.eq_encodeAll⟩
  · rw [(written payloads (fun p member => (fit p member).2) whole).2, Frame.overrun,
      Option.map_eq_none_iff, List.find?_eq_none]
    intro p member long
    exact absurd (fit p member).1 (Nat.not_le.2 (of_decide_eq_true long))
  · subst clean
    exact carries.eq_encodeAll.symm
  · have whole : reads.flatten = Frame.encodeAll c.queue.payloads :=
      (List.append_cancel_left flushed).symm
    have lengths : ∀ payload ∈ c.queue.payloads, payload.length < addressable :=
      List.forall_mem_map.2 small
    obtain ⟨same, why⟩ := written _ lengths whole
    refine ⟨same, why, fun f failed => ?_⟩
    rw [why] at failed
    obtain ⟨payload, -, rfl⟩ := Option.map_eq_some_iff.1 failed
    rfl

/-- Three payloads are written in a row, the third is too long for the receiver, and no read ends where
a frame does. -/
def oddReads : Frame.Reads :=
  [[3], [0, 0], [0, 0, 0, 0, 0, 1], [2, 3, 0, 0, 0, 0, 0, 0, 0, 0, 4, 0, 0, 0, 0, 0, 0, 0, 9], [9, 9, 9]]

theorem oddReads_deliver :
    Frame.readAll 3 oddReads = ([[1, 2, 3], []], some (.frameOversized 4 3)) := by
  have proper : ∀ chunk ∈ oddReads, chunk ≠ [] := by decide
  let writer : Connection :=
    ⟨⟨"localhost", 7⟩, ⟨64, [.ofBytes [1, 2, 3], .ofBytes [], .ofBytes [9, 9, 9, 9]], 7, false⟩,
      [], false⟩
  obtain ⟨frames, failure, -, -, read, -, -, -, -, wrote⟩ :=
    link_delivers ⟨4, true, some 3⟩ 0 proper
  obtain ⟨rfl, rfl, -⟩ := wrote writer (by decide) (by decide)
  exact read

end InboundLink

end GraphRelay
