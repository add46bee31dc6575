import GraphRelay.Proofs.Link.Sending

/-!
# What a refused call leaves behind

A payload that is refused leaves the sender as it was, and a call that cannot open all links closes those
it has opened. A receiver that is registered twice is refused too late: it has its new address by then.
-/
namespace GraphRelay

open PeerTable (Ascending)

namespace PeerTable

variable {α : Type} {peer : PeerId} {a : α} {table : PeerTable α}

theorem Ascending.insert_self (h : Ascending table) (known : table.find? peer = some a) :
    table.insert peer a = table := by
  induction table with
  | nil => cases known
  | cons entry rest ih =>
    obtain ⟨p, b⟩ := entry
    obtain ⟨least, ascending⟩ := List.pairwise_cons.1 h
    rw [find?_cons] at known
    by_cases own : p = peer
    · subst own
      rw [if_pos rfl] at known
      cases known
      rw [PeerTable.insert, if_neg Int32.lt_irrefl, if_pos rfl]
    · rw [if_neg own] at known
      have before : p < peer := least _ (mem_of_find? known)
      rw [PeerTable.insert, if_neg (Int32.lt_asymm before), if_neg (Ne.symm own), ih ascending known]

end PeerTable

namespace Outgoing

variable {o o' : Outbound} {f : Fault} {peer : PeerId} {endpoint : Endpoint} {base : List Connection}
variable {network : PeerId → Network} {rest targets : List (PeerId × Endpoint)} {es : List Event}

/-- A refused registration changes nothing, unless the receiver is known at another address. -/
theorem register_refuses {address : String} (h : Tidy o)
    (refused : (Outbound.register address peer).Refuses o f o') :
    o'.links = o.links ∧ o'.connections = o.connections ∧
    (∀ q ≠ peer, o'.registered.find? q = o.registered.find? q) ∧
    (o' = o ↔ ¬(o.links = [] ∧ ∃ old new, o.registered.find? peer = some old ∧
      Endpoint.parse address = .ok new ∧ new ≠ old)) := by
  obtain ⟨rfl, f, -, reason⟩ | ⟨new, unlinked, parsed, rfl, ⟨ok, -⟩ | ⟨-, old, known⟩⟩ :=
    register_cases refused
  · refine ⟨rfl, rfl, fun _ _ => rfl, iff_of_true rfl ?_⟩
    rintro ⟨unlinked, old, new, known, parsed, other⟩
    rcases reason with linked | unparsed
    · exact linked unlinked
    · rw [parsed] at unparsed
      cases unparsed
  · cases ok
  · refine ⟨rfl, rfl, fun q other => ?_, ?_⟩
    · rw [PeerTable.find?_insert, if_neg other]
    by_cases same : new = old
    · refine iff_of_true ?_ fun ⟨_, old', new', known', parsed', other⟩ => other ?_
      · rw [same, h.registered.insert_self known]
      · rw [parsed, Except.ok.injEq] at parsed'
        rw [known, Option.some.injEq] at known'
        rw [← parsed', ← known', same]
    · refine iff_of_false (fun unchanged => same ?_) fun none => none
        ⟨unlinked, old, new, known, parsed, same⟩
      have entered : (o.registered.insert peer new).find? peer = some new := by
        rw [PeerTable.find?_insert, if_pos rfl]
      have table : o.registered.insert peer new = o.registered :=
        congrArg Outbound.registered unchanged
      rw [table, known, Option.some.injEq] at entered
      exact entered.symm

theorem send_refuses {payload : Bytes} (refused : (Outbound.send peer payload).Refuses o f o') :
    o' = o := by
  rw [LinkAction.Refuses, Outbound.send_outcome] at refused
  split at refused
  · exact (congrArg Prod.snd refused).symm
  split at refused
  · cases congrArg Prod.fst refused
  · exact (congrArg Prod.snd refused).symm
  split at refused
  · cases congrArg Prod.fst refused
  · exact (congrArg Prod.snd refused).symm

/-- So far a call that found no links has only opened its own, each to another receiver. -/
structure Begun (base : List Connection) (targets : List (PeerId × Endpoint)) (o : Outbound) :
    Prop where
  unlinked : ∀ target ∈ targets, o.links.find? target.1 = none
  later : ∀ link ∈ o.links, base.length ≤ link.2
  current : ∃ new, o.connections = base ++ new ∧
    ∀ j < new.length, ∃ q, o.links.find? q = some (base.length + j)

theorem begun_unlinked (unlinked : o.links = []) : Begun o.connections targets o where
  unlinked _ _ := by rw [unlinked, PeerTable.find?_nil]
  later _ member := by simp [unlinked] at member
  current := ⟨[], (List.append_nil _).symm, nofun⟩

theorem Begun.openLink {network : Network} (h : Begun base ((peer, endpoint) :: rest) o)
    (distinct : ∀ target ∈ rest, target.1 ≠ peer)
    (opens : Outbound.openLink network peer endpoint o = .ok o') : Begun base rest o' := by
  rw [Outbound.openLink_ok opens]
  obtain ⟨new, whole, current⟩ := h.current
  have position : o.connections.length = base.length + new.length := by
    rw [whole, List.length_append]
  refine ⟨fun target member => ?_, fun link member => ?_,
    new ++ [.start endpoint o.sender o.options.queueCapacity], ?_, fun j inside => ?_⟩
  · rw [PeerTable.find?_insert, if_neg (distinct target member)]
    exact h.unlinked target (List.mem_cons_of_mem _ member)
  · rcases PeerTable.mem_insert member with rfl | old
    · exact position ▸ Nat.le_add_right _ _
    · exact h.later link old
  · rw [whole, List.append_assoc]
  · rw [List.length_append, List.length_singleton] at inside
    rcases Nat.lt_succ_iff_lt_or_eq.1 inside with old | rfl
    · obtain ⟨q, leads⟩ := current j old
      have other : q ≠ peer := by
        rintro rfl
        rw [h.unlinked _ List.mem_cons_self] at leads
        cases leads
      exact ⟨q, by rw [PeerTable.find?_insert, if_neg other, leads]⟩
    · exact ⟨peer, by rw [PeerTable.find?_insert, if_pos rfl, position]⟩

/-- Closing ends all that was opened, and nothing else. -/
theorem Begun.closeLinks (h : Begun base targets o) :
    ∃ new, o.closeLinks.connections = base ++ new ∧ ∀ c ∈ new, c.ended = true := by
  obtain ⟨new, whole, current⟩ := h.current
  refine ⟨new.map Connection.close, List.ext_getElem? fun i => ?_, fun c member => ?_⟩
  · rw [Outbound.closeLinks_getElem?, whole]
    rcases Nat.lt_or_ge i base.length with old | later
    · have apart : i ∉ o.links.map Prod.snd := fun member => by
        obtain ⟨link, linked, rfl⟩ := List.mem_map.1 member
        exact absurd old (Nat.not_lt.2 (h.later link linked))
      rw [List.getElem?_append_left old, List.getElem?_append_left old]
      simp only [apart, if_false, Option.map_id']
    · rw [List.getElem?_append_right later, List.getElem?_append_right later, List.getElem?_map]
      rcases Nat.lt_or_ge (i - base.length) new.length with inside | outside
      · obtain ⟨q, leads⟩ := current _ inside
        rw [Nat.add_sub_cancel' later] at leads
        have linked : i ∈ o.links.map Prod.snd := List.mem_map_of_mem (PeerTable.mem_of_find? leads)
        simp only [linked, if_true]
      · rw [List.getElem?_eq_none outside]
        rfl
  · obtain ⟨opened, -, rfl⟩ := List.mem_map.1 member
    rfl

theorem Begun.openAll_refuses (h : Begun base targets o) (ascending : Ascending targets)
    (refused : (Outbound.openAll network targets).Refuses o f o') :
    o'.links = [] ∧ o'.registered = o.registered ∧
      ∃ new, o'.connections = base ++ new ∧ ∀ c ∈ new, c.ended = true := by
  induction targets generalizing o with
  | nil => cases refused
  | cons target rest ih =>
    obtain ⟨peer, endpoint⟩ := target
    obtain ⟨least, later⟩ := List.pairwise_cons.1 ascending
    rw [LinkAction.Refuses, Outbound.openAll_cons] at refused
    cases opens : Outbound.openLink (network peer) peer endpoint o with
    | error f =>
      rw [opens] at refused
      cases refused
      exact ⟨rfl, rfl, h.closeLinks⟩
    | ok next =>
      rw [opens] at refused
      have distinct : ∀ target ∈ rest, target.1 ≠ peer := fun target member =>
        Ne.symm (Int32.ne_of_lt (least target member))
      obtain ⟨closed, same, ended⟩ := ih (h.openLink distinct opens) later refused
      rw [Outbound.openLink_ok opens] at same
      exact ⟨closed, same, ended⟩

/-- The endpoint to which the link to a receiver leads. -/
def endpoint? (o : Outbound) (peer : PeerId) : Option Endpoint :=
  (o.current? peer).map fun link => link.2.endpoint

theorem endpoint?_eq (o : Outbound) (peer : PeerId) : endpoint? o peer =
    (o.links.find? peer).bind fun i => o.connections[i]?.map Connection.endpoint := by
  rw [endpoint?, Outbound.current?]
  cases o.links.find? peer with
  | none => rfl
  | some i => cases found : o.connections[i]? <;> simp [found]

/-- A link that is opened leads to its receiver, and the others lead where they did. -/
theorem endpoint?_openLink {network : Network} (h : Bounded o)
    (opens : Outbound.openLink network peer endpoint o = .ok o') (q : PeerId) :
    endpoint? o' q = if q = peer then some endpoint else endpoint? o q := by
  rw [Outbound.openLink_ok opens, endpoint?_eq, endpoint?_eq, PeerTable.find?_insert]
  split
  · simp [Connection.start]
  · cases leads : o.links.find? q with
    | none => rfl
    | some i =>
      rw [Option.bind_some, Option.bind_some, List.getElem?_append_left (h q i leads)]

theorem openAll_yields (h : Bounded o) (ascending : Ascending targets)
    (opens : (Outbound.openAll network targets).Yields o () o') :
    o'.registered = o.registered ∧
      ∀ q, endpoint? o' q = (PeerTable.find? targets q).or (endpoint? o q) := by
  induction targets generalizing o with
  | nil =>
    cases opens
    exact ⟨rfl, fun q => rfl⟩
  | cons target rest ih =>
    obtain ⟨peer, endpoint⟩ := target
    obtain ⟨least, later⟩ := List.pairwise_cons.1 ascending
    rw [LinkAction.Yields, Outbound.openAll_cons] at opens
    cases first : Outbound.openLink (network peer) peer endpoint o with
    | error f =>
      rw [first] at opens
      cases opens
    | ok next =>
      rw [first] at opens
      obtain ⟨same, leads⟩ := ih (h.openLink first) later opens
      rw [Outbound.openLink_ok first] at same
      refine ⟨same, fun q => ?_⟩
      rw [leads, endpoint?_openLink h first, PeerTable.find?_cons]
      by_cases own : q = peer
      · subst own
        have once : PeerTable.find? rest q = none := by
          cases again : PeerTable.find? rest q with
          | none => rfl
          | some other => exact absurd (least _ (PeerTable.mem_of_find? again)) Int32.lt_irrefl
        rw [once, if_pos rfl, if_pos rfl]
        rfl
      · rw [if_neg own, if_neg (Ne.symm own)]

/-- Whatever was asked of a sender before, a refused registration leaves the links alone, and the
receivers too unless this one is registered at another address, which it then replaces. A refused
payload leaves the sender as it was. A sender without links that cannot open all it wants, whichever of
them fails, has none afterwards: what was opened is ended, and the receivers stay registered. If all
are opened, each leads where its receiver is registered. Any calls lead to such a sender. -/
theorem refused_calls (sender : PeerId) (options : LinkOptions)
    {toOpen : Option (List (PeerId × Endpoint))}
    (run : Chain Step es ⟨.start sender options, none⟩ ⟨o, toOpen⟩) :
    (∀ address peer f o', (Outbound.register address peer).Refuses o f o' →
      o'.links = o.links ∧ o'.connections = o.connections ∧
      (∀ q ≠ peer, o'.registered.find? q = o.registered.find? q) ∧
      (o' = o ↔ ¬(o.links = [] ∧ ∃ old new, o.registered.find? peer = some old ∧
        Endpoint.parse address = .ok new ∧ new ≠ old))) ∧
    (∀ peer payload f o', (Outbound.send peer payload).Refuses o f o' → o' = o) ∧
    (o.links = [] → ∀ network : PeerId → Network,
      (∀ f o', (Outbound.connectOver network).Refuses o f o' →
        o'.links = [] ∧ o'.registered = o.registered ∧
          ∃ new, o'.connections = o.connections ++ new ∧ ∀ c ∈ new, c.ended = true) ∧
      ∀ o', (Outbound.connectOver network).Yields o () o' →
        o'.registered = o.registered ∧ ∀ peer, endpoint? o' peer = o.registered.find? peer) ∧
    ∀ calls : List Call, toOpen = none → ∃ later,
      Chain Step (es ++ later) ⟨.start sender options, none⟩ ⟨calls.foldl Call.apply o, none⟩ := by
  have tidy : Tidy o := run.preserves (P := fun s => Tidy s.outbound) (tidy_start sender options)
    fun _ _ _ before step => before.step step
  refine ⟨fun _ _ _ _ => register_refuses tidy, fun _ _ _ _ => send_refuses,
    fun unlinked network => ⟨fun f o' refused => ?_, fun o' opens => ?_⟩, fun calls idle => ?_⟩
  · rw [LinkAction.Refuses, Outbound.connectOver_outcome] at refused
    split at refused
    · cases refused
      exact ⟨unlinked, rfl, [], (List.append_nil _).symm, List.forall_mem_nil _⟩
    · exact (begun_unlinked unlinked).openAll_refuses tidy.registered refused
  · rw [LinkAction.Yields, Outbound.connectOver_outcome] at opens
    split at opens
    · cases opens
    · have bounded : Bounded o := fun q i leads => by simp [unlinked, PeerTable.find?_nil] at leads
      obtain ⟨same, leads⟩ := openAll_yields bounded tidy.registered opens
      refine ⟨same, fun peer => ?_⟩
      rw [leads, endpoint?_eq o, unlinked, PeerTable.find?_nil, Option.bind_none, Option.or_none]
  · subst idle
    obtain ⟨later, -, more⟩ := leads_calls calls tidy
    exact ⟨later, chain_append.2 ⟨_, run, more⟩⟩

def informed (endpoint : Endpoint) : Outbound := ⟨4, .default, [(0, endpoint)], [], [], []⟩

/-- The second address is refused, and the first is gone. -/
theorem informed_twice :
    [Call.register "socket://127.0.0.1:1" 0].foldl Call.apply (.start 4 .default) =
      informed ⟨"127.0.0.1", 1⟩ ∧
    (Outbound.register "socket://[::1]:1" 0).Refuses (informed ⟨"127.0.0.1", 1⟩) (.repeatedReceiver 0)
      (informed ⟨"::1", 1⟩) ∧
    (informed ⟨"127.0.0.1", 1⟩).registered ≠ (informed ⟨"::1", 1⟩).registered :=
  ⟨rfl, rfl, by decide⟩

theorem informed_run : Chain Step [.registered 0] ⟨.start 4 .default, none⟩
    ⟨informed ⟨"127.0.0.1", 1⟩, none⟩ :=
  .one (@Step.register _ _ "socket://127.0.0.1:1" 0 rfl)

theorem informed_refuses : Chain Step [.registered 0] ⟨.start 4 .default, none⟩
      ⟨informed ⟨"127.0.0.1", 1⟩, none⟩ ∧
    (∀ f o', (Outbound.register "socket://[::1]:1" 0).Refuses (informed ⟨"127.0.0.1", 1⟩) f o' →
      o' ≠ informed ⟨"127.0.0.1", 1⟩) ∧
    ∀ f o', (Outbound.connect .isolated).Refuses (informed ⟨"127.0.0.1", 1⟩) f o' → o'.links = [] := by
  obtain ⟨register, -, connect, -⟩ := refused_calls 4 .default informed_run
  refine ⟨informed_run, fun f o' refused same => ?_, fun f o' refused => ?_⟩
  · exact (register _ _ f o' refused).2.2.2.1 same ⟨rfl, _, ⟨"::1", 1⟩, rfl, rfl, by decide⟩
  · exact ((connect rfl _).1 f o' refused).1

end Outgoing

end GraphRelay
