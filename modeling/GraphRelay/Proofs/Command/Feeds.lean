import GraphRelay.Command.Run
import GraphRelay.Proofs.Command.Serving
import GraphRelay.Proofs.Link.Accepting
import GraphRelay.Proofs.Link.Scheduling

/-!
# Serving several senders

Senders that write whole messages and at last announce their ends are reported to the last message,
whichever of them is heard next. The order in which they connect and in which their messages arrive makes
no difference to what is reported.
-/
namespace GraphRelay

theorem KeyValue.sendable_final (rank : Int32) : (KeyValue.final rank).Sendable :=
  Complete.sendable Bool.false_ne_true ⟨rfl, rfl, rfl, rfl⟩

/-- A message is at least one payload. -/
theorem KeyValue.length_le_payloads (ms : List KeyValue) :
    ms.length ≤ (ms.flatMap KeyValue.payloads).length := by
  induction ms with
  | nil => exact Nat.le_refl 0
  | cons m ms ih =>
    simp only [List.flatMap_cons, List.length_append, List.length_cons, payloads]
    omega

/-- A sender, what it sends, and how its stream comes in reads: its introduction, and then the frames of
its messages and of the end that it announces. -/
structure Feed (limit : Nat) where
  sender : PeerId
  messages : List KeyValue
  /-- The rank under which the end is announced. -/
  rank : Int32
  reads : Frame.Reads
  /-- Only the last message announces the end. -/
  more : ∀ m ∈ messages, m.kind ≠ .final
  consistent : ∀ m ∈ messages, m.Consistent
  whole : ∀ m ∈ messages, m.transmission.refusal = none
  /-- The receiver takes frames as long as the payloads. -/
  fits : ∀ m ∈ messages ++ [KeyValue.final rank], ∀ payload ∈ m.transmission.payloads,
    payload.length ≤ limit ∧ payload.length < addressable
  proper : Frame.Proper reads
  written : reads.flatten = Wire.int32 sender ++
    Frame.encodeAll ((messages ++ [KeyValue.final rank]).flatMap fun m => m.transmission.payloads)

namespace Feed

variable {limit : Nat} {feed : Feed limit} {feeds : List (Feed limit)} {peer : PeerId}

/-- All that is sent. -/
def sent (feed : Feed limit) : List KeyValue := feed.messages ++ [KeyValue.final feed.rank]

/-- What comes of the stream behind the introduction. -/
def frames (feed : Feed limit) : Frame.Reads := (Frame.fill 4 feed.reads).2

/-- The link of the sender once it is accepted. -/
def link (options : LinkOptions) (feed : Feed limit) : InboundLink :=
  ⟨feed.sender, feed.frames, .empty options.queueCapacity, none⟩

theorem sendable (feed : Feed limit) : ∀ m ∈ feed.sent, m.Sendable := by
  intro m member
  rcases List.mem_append.1 member with own | last
  · exact KeyValue.sendable_of_transmission (feed.whole m own)
  · exact List.mem_singleton.1 last ▸ KeyValue.sendable_final feed.rank

theorem payloads_fit (feed : Feed limit) : ∀ payload ∈ feed.sent.flatMap KeyValue.payloads,
    payload.length ≤ limit ∧ payload.length < addressable := by
  intro payload member
  obtain ⟨m, own, member⟩ := List.mem_flatMap.1 member
  refine feed.fits m own payload ?_
  rwa [KeyValue.transmission_of_sendable (feed.sendable m own)]

theorem transferable (feed : Feed limit) : ∀ m ∈ feed.sent, m.Transferable := by
  intro m member
  refine ⟨feed.sendable m member, ?_, KeyValue.representable_of_lengths (feed.sendable m member)
    fun payload own => (feed.payloads_fit payload (List.mem_flatMap_of_mem member own)).2⟩
  rcases List.mem_append.1 member with own | last
  · exact feed.consistent m own
  · rw [List.mem_singleton.1 last]
    exact List.forall_mem_nil _

theorem ending (feed : Feed limit) : Serve.Ending feed.sent := by
  have more := feed.more
  rw [sent]
  generalize feed.messages = messages at more ⊢
  induction messages with
  | nil => exact .last rfl
  | cons m ms ih =>
    obtain ⟨here, later⟩ := List.forall_mem_cons.1 more
    exact .cons here (ih later)

theorem filter_sent (feed : Feed limit) : feed.sent.filter (·.kind ≠ .final) = feed.messages := by
  have own : feed.messages.filter (·.kind ≠ .final) = feed.messages :=
    List.filter_eq_self.2 fun m member => decide_eq_true (feed.more m member)
  have last : [KeyValue.final feed.rank].filter (·.kind ≠ .final) = [] := rfl
  rw [sent, List.filter_append, own, last, List.append_nil]

theorem reads_flatten (feed : Feed limit) : feed.reads.flatten =
    Wire.int32 feed.sender ++ Frame.encodeAll (feed.sent.flatMap KeyValue.payloads) := by
  have same : feed.sent.flatMap (fun m => m.transmission.payloads) =
      feed.sent.flatMap KeyValue.payloads := by
    refine List.flatMap_congr fun m member => ?_
    rw [KeyValue.transmission_of_sendable (feed.sendable m member)]
    rfl
  rw [← same]
  exact feed.written

theorem frames_flatten (feed : Feed limit) :
    feed.frames.flatten = Frame.encodeAll (feed.sent.flatMap KeyValue.payloads) := by
  obtain ⟨-, rest, -⟩ := Frame.fill_eq 4 feed.proper
  rw [frames, rest, feed.reads_flatten, List.drop_left' (Wire.length_int32 _)]

theorem introduction (feed : Feed limit) :
    (Arrival.stream feed.reads).introduction = .ok (feed.sender, feed.frames) := by
  obtain ⟨id, -, -⟩ := Frame.fill_eq 4 feed.proper
  rw [feed.reads_flatten, List.take_left' (Wire.length_int32 _)] at id
  rw [Arrival.introduction]
  simp only [id, Wire.length_int32, Nat.lt_irrefl, if_false, Wire.toInt32_int32, frames]

theorem greet {r : Inbound} (fresh : feed.sender ∉ r.senders) :
    r.greet (.stream feed.reads) = .ok (feed.link r.options) := by
  have unseen : r.links.any (·.sender = feed.sender) = false := by
    simpa [Inbound.senders] using fresh
  rw [Inbound.greet, feed.introduction]
  simp only [bind, Except.bind, unseen, Bool.false_eq_true, if_false]
  rfl

theorem acceptLinks {r : Inbound}
    (waiting : r.backlog = feeds.map fun feed => .stream feed.reads)
    (distinct : (r.senders ++ feeds.map Feed.sender).Nodup) :
    Inbound.acceptLinks feeds.length r = some (.ok (),
      { r with backlog := [], links := r.links ++ feeds.map (Feed.link r.options) }) := by
  induction feeds generalizing r with
  | nil =>
    rw [List.map_nil] at waiting
    rw [List.map_nil, List.append_nil, ← waiting]
    rfl
  | cons feed feeds ih =>
    rw [List.map_cons] at distinct
    have fresh : feed.sender ∉ r.senders := by
      have apart := List.disjoint_of_nodup_append distinct
      simp at apart
      exact apart.1
    rw [List.length_cons, Inbound.Intake.acceptLinks_accept waiting (greet fresh), ih rfl]
    · simp
    · simpa [Inbound.senders, link] using distinct

/-- The feeds in the order of their senders. -/
def sorted (feeds : List (Feed limit)) : List (Feed limit) :=
  feeds.mergeSort fun a b => decide (a.sender ≤ b.sender)

theorem sorted_perm (feeds : List (Feed limit)) : (sorted feeds).Perm feeds :=
  List.mergeSort_perm ..

/-- The receiver as it is once everyone is accepted who connected. -/
def connected (options : LinkOptions) (feeds : List (Feed limit)) : Inbound :=
  ⟨options, true, [], feeds.map (link options), 0⟩

theorem senders_connected (options : LinkOptions) (feeds : List (Feed limit)) :
    (connected options feeds).senders = feeds.map Feed.sender := by
  rw [Inbound.senders, connected, List.map_map]
  rfl

theorem foldl_arrive {r : Inbound} (bound : r.bound = true) (streams : List Frame.Reads) :
    streams.foldl Inbound.arrive r = { r with backlog := r.backlog ++ streams.map .stream } := by
  induction streams generalizing r with
  | nil => simp
  | cons reads streams ih =>
    have first : r.arrive reads = { r with backlog := r.backlog ++ [.stream reads] } := by
      rw [Inbound.arrive, Inbound.expect, if_pos bound]
    have later := ih (r := { r with backlog := r.backlog ++ [.stream reads] }) bound
    rw [List.foldl_cons, first, later]
    simp

/-- A receiver that listens and has not accepted anybody. -/
def listening (options : LinkOptions) : Inbound := { Inbound.start options with bound := true }

theorem accept (options : LinkOptions) (distinct : (feeds.map Feed.sender).Nodup) :
    ((feeds.map Feed.reads).foldl Inbound.arrive (listening options)).accept feeds.length =
      some (.ok (), connected options (sorted feeds)) := by
  have sort : (sorted feeds).map (link options) =
      (feeds.map (link options)).mergeSort fun a b => decide (a.sender ≤ b.sender) :=
    List.map_mergeSort fun _ _ _ _ => rfl
  rw [foldl_arrive rfl, Inbound.accept, acceptLinks (by simp [listening, Inbound.start])]
  · simp only [listening, Inbound.start, Bool.not_true, Bool.false_eq_true, if_false,
      List.nil_append, Inbound.sortLinks, ← sort, connected]
  · simpa [listening, Inbound.start, Inbound.senders] using distinct

/-- All that is sent, with who sends it. -/
def ops (feeds : List (Feed limit)) : List (PeerId × KeyValue) :=
  feeds.flatMap fun feed => feed.sent.map (feed.sender, ·)

theorem mem_senders_of_mem_ops {op : PeerId × KeyValue} (member : op ∈ ops feeds) :
    op.1 ∈ feeds.map Feed.sender := by
  obtain ⟨feed, own, member⟩ := List.mem_flatMap.1 member
  obtain ⟨m, -, rfl⟩ := List.mem_map.1 member
  exact List.mem_map_of_mem own

theorem transferable_ops : ∀ op ∈ ops feeds, op.2.Transferable := by
  intro op member
  obtain ⟨feed, -, member⟩ := List.mem_flatMap.1 member
  obtain ⟨m, own, rfl⟩ := List.mem_map.1 member
  exact feed.transferable m own

theorem due_ops_of_absent (absent : peer ∉ feeds.map Feed.sender) :
    Serve.due peer (ops feeds) = [] := by
  rw [List.eq_nil_iff_forall_not_mem]
  intro m due
  exact absent (mem_senders_of_mem_ops (Serve.mem_due_iff.1 due))

/-- Of a sender is due what it sends. -/
theorem due_ops (distinct : (feeds.map Feed.sender).Nodup) (member : feed ∈ feeds) :
    Serve.due feed.sender (ops feeds) = feed.sent := by
  have own (peer : PeerId) (f : Feed limit) : Serve.due peer (f.sent.map (f.sender, ·)) =
      if f.sender = peer then f.sent else [] := by
    by_cases same : f.sender = peer <;> simp [Serve.due, same, List.filter_map, Function.comp_def]
  have split (peer : PeerId) (f : Feed limit) (fs : List (Feed limit)) :
      Serve.due peer (ops (f :: fs)) =
        Serve.due peer (f.sent.map (f.sender, ·)) ++ Serve.due peer (ops fs) := by
    simp [Serve.due, ops]
  induction feeds with
  | nil => cases member
  | cons f fs ih =>
    obtain ⟨fresh, distinct⟩ := List.nodup_cons.1 distinct
    rw [split, own]
    rcases List.mem_cons.1 member with rfl | later
    · rw [if_pos rfl, due_ops_of_absent fresh, List.append_nil]
    · have other : f.sender ≠ feed.sender := fun same =>
        fresh (same ▸ List.mem_map_of_mem later)
      rw [if_neg other, List.nil_append, ih distinct later]

theorem closing (distinct : (feeds.map Feed.sender).Nodup) :
    Serve.Closing (feeds.map Feed.sender) (ops feeds) where
  known op member := mem_senders_of_mem_ops member
  ending peer member := by
    obtain ⟨feed, own, rfl⟩ := List.mem_map.1 member
    rw [due_ops distinct own]
    exact feed.ending

/-- What is owed of each sender. -/
def owed (feeds : List (Feed limit)) : Waiting :=
  fun peer => (Serve.due peer (ops feeds)).flatMap KeyValue.payloads

theorem pending_owed (feeds : List (Feed limit)) :
    Pending KeyValue.payloads (ops feeds) (owed feeds) := by
  intro peer
  rw [owed, Serve.due, List.flatMap_map]

theorem owing {options : LinkOptions} {feeds : List (Feed options.frameLimit)}
    (distinct : (feeds.map Feed.sender).Nodup) :
    Inbound.Owing (owed feeds) (connected options feeds) where
  distinct := senders_connected options feeds ▸ distinct
  owes link member := by
    obtain ⟨feed, own, rfl⟩ := List.mem_map.1 member
    have due : owed feeds feed.sender = feed.sent.flatMap KeyValue.payloads := by
      rw [owed, due_ops distinct own]
    obtain ⟨-, -, proper⟩ := Frame.fill_eq 4 feed.proper
    have carries := Frame.carries_of_fit feed.payloads_fit
    rw [← feed.frames_flatten, ← due] at carries
    exact InboundLink.owes_fresh proper options.frameLimit_le carries
  others peer absent := by
    rw [senders_connected] at absent
    rw [owed, due_ops_of_absent absent, List.flatMap_nil]

theorem length_sent_le (feed : Feed limit) : feed.sent.length ≤ feed.frames.flatten.length := by
  have carries := (Frame.carries_of_fit feed.payloads_fit).length_le
  have each := KeyValue.length_le_payloads feed.sent
  rw [feed.frames_flatten]
  omega

/-- Every message takes a byte that is still unread. -/
theorem length_ops_le (options : LinkOptions) (feeds : List (Feed limit)) :
    (ops feeds).length ≤ (connected options feeds).unread := by
  rw [Inbound.unread, connected, ops]
  induction feeds with
  | nil => exact Nat.le_refl 0
  | cons feed feeds ih =>
    have own := feed.length_sent_le
    simp only [List.flatMap_cons, List.map_cons, List.length_append, List.length_map, link] at ih ⊢
    omega

theorem length_ops (feeds : List (Feed limit)) :
    (ops feeds).length = (feeds.map fun feed => feed.messages.length + 1).sum := by
  rw [ops, List.length_flatMap]
  simp [sent]

/-- Of each sender its messages are reported in order, and of nobody else anything. -/
structure Reported (feeds : List (Feed limit)) (reports : List MessageReport) : Prop where
  told : ∀ feed ∈ feeds, List.Forall₂ (MessageReport.Tells feed.sender) feed.messages
    (reports.filter (·.sender = feed.sender))
  known : ∀ report ∈ reports, report.sender ∈ feeds.map Feed.sender

theorem reported_of_each {reports : List MessageReport} (distinct : (feeds.map Feed.sender).Nodup)
    (each : ∀ peer : PeerId, (Serve.toTell peer (ops feeds)).mapM (MessageReport.ofMessage peer) =
      .ok (reports.filter (·.sender = peer))) : Reported feeds reports where
  told feed member := by
    have made := mapM_eq_ok_iff.1 (each feed.sender)
    rw [Serve.toTell, due_ops distinct member, filter_sent] at made
    have sent : ∀ m ∈ feed.messages, m.Transferable := fun m own =>
      feed.transferable m (List.mem_append_left _ own)
    exact ((List.forall₂_and_left _ _).2 ⟨sent, made⟩).imp fun m report h =>
      MessageReport.tells_of_ofMessage h.1 h.2
  known report member := by
    have own : report ∈ reports.filter (·.sender = report.sender) := by simp [member]
    have made := mapM_eq_ok_iff.1 (each report.sender)
    have some : 0 < (Serve.toTell report.sender (ops feeds)).length := by
      rw [made.length_eq]
      exact List.length_pos_of_mem own
    obtain ⟨m, due⟩ := List.exists_mem_of_length_pos some
    exact mem_senders_of_mem_ops (Serve.mem_due_iff.1 (List.mem_of_mem_filter due))

theorem Reported.perm {feeds' : List (Feed limit)} {reports : List MessageReport}
    (reported : Reported feeds reports) (same : feeds.Perm feeds') : Reported feeds' reports where
  told feed member := reported.told feed (same.mem_iff.2 member)
  known report member := (same.map Feed.sender).mem_iff.1 (reported.known report member)

/-- On any links that deliver what they owe all senders are reported, and always the same. -/
theorem exists_reported {options : LinkOptions} (feeds : List (Feed options.frameLimit))
    (distinct : (feeds.map Feed.sender).Nodup) : ∃ reports : List MessageReport,
      Reported feeds reports ∧
      ∀ {σ : Type} [Inbox σ] {Owed : Waiting → σ → Prop} (s : σ), Delivers Owed →
        Owed (owed feeds) s → ∃ told t, Serve.Run (ops feeds).length (feeds.map Feed.sender) s told t ∧
          told.Perm reports ∧ Reported feeds told := by
  have run {σ : Type} [Inbox σ] {Owed : Waiting → σ → Prop} (s : σ) (delivers : Delivers Owed)
      (owed : Owed (owed feeds) s) := Serve.exists_run delivers (closing distinct)
        (pending_owed feeds) transferable_ops owed
  obtain ⟨reports, -, -, each⟩ := run (connected options feeds) Inbound.delivers_owing (owing distinct)
  refine ⟨reports, reported_of_each distinct each, fun s delivers owed => ?_⟩
  obtain ⟨told, t, ends, each'⟩ := run s delivers owed
  refine ⟨told, t, ends, MessageReport.perm_of_filter fun peer => ?_,
    reported_of_each distinct each'⟩
  exact Except.ok.inj ((each' peer).symm.trans (each peer))

end Feed

namespace Command

open Feed (listening connected sorted)

variable {settings : Settings} {request : ServeRequest} {host : MemoryHost} {endpoint : Endpoint}
variable {address : Address} {later : List Frame.Reads}

theorem bind_listening (parsed : Endpoint.parse request.address = .ok endpoint)
    (resolved : endpoint.resolve = .ok address) (links : LinkOptions) :
    (Inbound.bind (answering none none) request.address).Yields (.start links) ()
      (listening links) := by
  refine LinkAction.bind_yields.2 ⟨endpoint, _, LinkAction.lift_yields.2 ⟨parsed, rfl⟩, ?_⟩
  exact LinkAction.bind_yields.2 ⟨address, _, LinkAction.lift_yields.2 ⟨resolved, rfl⟩, rfl⟩

theorem run_bind {α β : Type} {x : StateM MemoryHost α} {a : α} {w w' : MemoryHost}
    (h : x.run w = (a, w')) (f : α → StateM MemoryHost β) : (x >>= f).run w = (f a).run w' := by
  rw [StateT.run_bind, h]
  rfl

/-- The next callers are those who wait first. -/
theorem callers_waiting {n : Nat} {streams : List Frame.Reads} (count : n = streams.length)
    (calling : host.waiting = streams ++ later) :
    (Host.callers n : StateM MemoryHost _).run host =
      (some streams, { host with waiting := later }) := by
  have enough : ¬host.waiting.length < n := by simp [calling, count]
  have call : (Host.callers n : StateM MemoryHost _).run host =
      StateT.run (if host.waiting.length < n then pure none
        else do
          set { host with waiting := host.waiting.drop n }
          pure (some (host.waiting.take n)) : StateM MemoryHost _) host := rfl
  rw [call, if_neg enough, calling, count, List.take_left, List.drop_left]
  rfl

theorem run_serve (parsed : Endpoint.parse request.address = .ok endpoint)
    (resolved : endpoint.resolve = .ok address)
    (listens : host.network.listenFailure address endpoint.port = none)
    {feeds : List (Feed settings.links.frameLimit)} (distinct : (feeds.map Feed.sender).Nodup)
    (count : request.senders = feeds.length)
    (calling : host.waiting = feeds.map Feed.reads ++ later) (format : ReportFormat)
    {reports : List MessageReport}
    (ends : Serve.reports (connected settings.links (sorted feeds)) = (reports, none)) :
    (serve settings format request : StateM MemoryHost Outcome).run host =
      (⟨String.join (reports.map fun r => present format r.text r.outline), .success⟩,
        { host with waiting := later }) := by
  have bound : (Inbound.bind (answering none none) request.address).run.run (.start settings.links) =
      (.ok (), listening settings.links) := bind_listening parsed resolved settings.links
  have accepted := Feed.accept settings.links distinct
  have listen : (Host.listen address endpoint.port : StateM MemoryHost _).run host = (none, host) :=
    congrArg (·, host) listens
  have callers : (Host.callers request.senders : StateM MemoryHost _).run host =
      (some (feeds.map Feed.reads), { host with waiting := later }) :=
    callers_waiting (by rw [count, List.length_map]) calling
  simp only [serve, parsed, resolved]
  rw [run_bind listen]
  simp only [bound]
  rw [run_bind callers]
  simp only [count, accepted, ends]
  rfl

/-- Everyone who connects is accepted, and all that they send is reported, in order for each of them, by
the time that all have announced their ends; then the command succeeds. It takes one call for each
message. The calls could come to anything else that readers and calls can come to together: the reports
would be the same, and in the same order for each sender. -/
theorem serve_reports_all (parsed : Endpoint.parse request.address = .ok endpoint)
    (resolved : endpoint.resolve = .ok address)
    (listens : host.network.listenFailure address endpoint.port = none)
    {feeds : List (Feed settings.links.frameLimit)} (distinct : (feeds.map Feed.sender).Nodup)
    (count : request.senders = feeds.length)
    (calling : host.waiting = feeds.map Feed.reads ++ later) (format : ReportFormat) :
    ∃ receiver reports left,
      ((feeds.map Feed.reads).foldl Inbound.arrive (listening settings.links)).accept
        request.senders = some (.ok (), receiver) ∧
      (serve settings format request : StateM MemoryHost Outcome).run host =
        (⟨String.join (reports.map fun r => present format r.text r.outline), .success⟩,
          { host with waiting := later }) ∧
      Serve.Run (feeds.map fun feed => feed.messages.length + 1).sum receiver.senders receiver
        reports left ∧
      Feed.Reported feeds reports ∧
      ∀ schedule : Schedule, ∃ told left,
        Serve.Run (feeds.map fun feed => feed.messages.length + 1).sum receiver.senders
          (⟨schedule, 0, receiver⟩ : Scheduled) told left ∧
        (∀ n ≥ (feeds.map fun feed => feed.messages.length + 1).sum,
          Serve.receiveReports n receiver.senders (⟨schedule, 0, receiver⟩ : Scheduled) =
            (told, none)) ∧
        told.Perm reports ∧ Feed.Reported feeds told := by
  have same := Feed.sorted_perm feeds
  have apart : ((sorted feeds).map Feed.sender).Nodup := (same.map Feed.sender).nodup_iff.2 distinct
  have calls : (Feed.ops (sorted feeds)).length =
      (feeds.map fun feed => feed.messages.length + 1).sum := by
    rw [Feed.length_ops]
    exact (same.map _).sum_nat
  have owing := Feed.owing apart
  have fuel := Feed.length_ops_le settings.links (sorted feeds)
  obtain ⟨all, -, run⟩ := Feed.exists_reported (sorted feeds) apart
  rw [← Feed.senders_connected settings.links, calls] at run
  rw [calls] at fuel
  obtain ⟨reports, left, ends, order, reported⟩ :=
    run (connected settings.links (sorted feeds)) Inbound.delivers_owing owing
  have whole : Serve.reports (connected settings.links (sorted feeds)) = (reports, none) :=
    Serve.receiveReports_of_run ends (by omega)
  refine ⟨_, reports, left, count ▸ Feed.accept settings.links distinct,
    run_serve parsed resolved listens distinct count calling format whole, ends,
    reported.perm same, fun schedule => ?_⟩
  obtain ⟨told, left, ends, order', reported⟩ :=
    run (⟨schedule, 0, connected settings.links (sorted feeds)⟩ : Scheduled)
      Scheduled.delivers_scheduled owing
  exact ⟨told, left, ends, fun n enough => Serve.receiveReports_of_run ends enough,
    order'.trans order.symm, reported.perm same⟩

/-- A row of one value. -/
def oneRow : KeyValue := .push 3 "w" (.ofInt64s [5]) ⟨.float32, [1, 1], [0, 0, 128, 63]⟩

theorem consistent_oneRow : oneRow.Consistent :=
  List.forall_mem_cons.2 ⟨rfl, List.forall_mem_cons.2 ⟨rfl, List.forall_mem_nil _⟩⟩

/-- Sender 7 pushes a row and leaves; its introduction comes in a read of its own. -/
def pushing : Feed LinkOptions.default.frameLimit where
  sender := 7
  messages := [oneRow]
  rank := 3
  reads := [Wire.int32 7,
    Frame.encodeAll ([oneRow, .final 3].flatMap fun m => m.transmission.payloads)]
  more := by decide
  consistent := List.forall_mem_cons.2 ⟨consistent_oneRow, List.forall_mem_nil _⟩
  whole := by decide
  fits := by decide
  proper := by unfold Frame.Proper; decide
  written := by decide

/-- Sender 2 waits at a barrier and leaves. -/
def pausing : Feed LinkOptions.default.frameLimit where
  sender := 2
  messages := [.barrier 1]
  rank := 1
  reads := [Wire.int32 2 ++
    Frame.encodeAll ([KeyValue.barrier 1, .final 1].flatMap fun m => m.transmission.payloads)]
  more := by decide
  consistent := List.forall_mem_cons.2 ⟨List.forall_mem_nil _, List.forall_mem_nil _⟩
  whole := by decide
  fits := by decide
  proper := by unfold Frame.Proper; decide
  written := by decide

/-- A host on which these senders connect. -/
def calledHost (streams : List Frame.Reads) : MemoryHost :=
  ⟨[], ⟨[], [], []⟩, answering none none, streams, []⟩

theorem serve_reports_two : ∃ receiver reports,
    (serve .default .text ⟨"socket://127.0.0.1:0", 2⟩ : StateM MemoryHost Outcome).run
        (calledHost [pushing.reads, pausing.reads]) =
      (⟨String.join (reports.map MessageReport.text), .success⟩, calledHost []) ∧
    Feed.Reported [pushing, pausing] reports ∧
    ∃ schedule : Schedule, ∃ told left,
      Serve.Run 4 receiver.senders (⟨schedule, 0, receiver⟩ : Scheduled) told left ∧
      told.Perm reports := by
  obtain ⟨receiver, reports, -, -, serves, -, reported, any⟩ :=
    @serve_reports_all .default ⟨"socket://127.0.0.1:0", 2⟩
      (calledHost [pushing.reads, pausing.reads]) ⟨"127.0.0.1", 0⟩ (.v4 127 0 0 1) [] (by decide)
      (by decide) rfl [pushing, pausing] (by decide) rfl rfl .text
  have refuses : CanReceive (.start .default) (.error .noSenders, .start .default) :=
    (Reception.Step.noSenders rfl).settles
  obtain ⟨schedule, -⟩ := Schedule.exists_of_canReceive refuses 0
  obtain ⟨told, left, ends, -, same, -⟩ := any schedule
  exact ⟨receiver, reports, serves, reported, schedule, told, left, ends, same⟩

end Command

end GraphRelay
