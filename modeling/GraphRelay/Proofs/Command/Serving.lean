import GraphRelay.Command.Serve
import GraphRelay.Proofs.Transfer.KeyValueStream
import Mathlib.Data.List.Count

/-!
# Receiving until all senders are through

Messages are received while senders remain. Every call takes one message whole from one sender, so
whichever sender is heard next, each gets on with its own messages and is dropped at its last. What is
reported of a sender is the same in every order.
-/
namespace GraphRelay

/-- The report tells the message that came from this sender: its ids and values are those that lay out
as the buffers. -/
structure MessageReport.Tells (sender : PeerId) (m : KeyValue) (report : MessageReport) : Prop where
  sender : report.sender = sender
  kind : report.kind = m.kind
  rank : report.rank = m.rank
  name : report.name = m.name
  ids : m.ids.elim [] Tensor.data = report.ids.flatMap Wire.int64
  values : m.values.elim [] Tensor.data = report.values.flatMap fun b => Wire.word 4 b.toNat

namespace MessageReport

variable {m : KeyValue} {sender : PeerId}

theorem exists_ids (vector : ∀ t ∈ m.ids, t.isIdVector = true) (consistent : m.Consistent) :
    ∃ ids, (m.ids.map Tensor.toInt64s).getD (.ok []) = .ok ids ∧
      m.ids.elim [] Tensor.data = ids.flatMap Wire.int64 := by
  cases present : m.ids with
  | none => exact ⟨[], rfl, rfl⟩
  | some t =>
    have own : t ∈ m.tensors := by simp [KeyValue.tensors, present]
    exact Tensor.exists_toInt64s (vector t present) (consistent t own)

theorem exists_values (array : ∀ t ∈ m.values, KeyValue.isValueArray t = true)
    (consistent : m.Consistent) :
    ∃ values, (m.values.map Tensor.toFloatBits).getD (.ok []) = .ok values ∧
      m.values.elim [] Tensor.data = values.flatMap fun b => Wire.word 4 b.toNat := by
  cases present : m.values with
  | none => exact ⟨[], rfl, rfl⟩
  | some t =>
    have own : t ∈ m.tensors := by simp [KeyValue.tensors, present]
    have float32 := (KeyValue.isValueArray_iff.1 (array t present)).1
    exact Tensor.exists_toFloatBits float32 (consistent t own)

/-- Whatever can be received can be reported. -/
theorem exists_ofMessage (transferable : m.Transferable) (sender : PeerId) :
    ∃ report, ofMessage sender m = .ok report ∧ Tells sender m report := by
  obtain ⟨sendable, consistent, -⟩ := transferable
  obtain ⟨ids, readIds, ownIds⟩ := exists_ids sendable.ids consistent
  obtain ⟨values, readValues, ownValues⟩ := exists_values sendable.values consistent
  refine ⟨⟨sender, m.kind, m.rank, m.name, ids, values⟩, ?_, rfl, rfl, rfl, rfl, ownIds, ownValues⟩
  rw [ofMessage, readIds, readValues]
  rfl

theorem tells_of_ofMessage {report : MessageReport} (transferable : m.Transferable)
    (made : ofMessage sender m = .ok report) : Tells sender m report := by
  obtain ⟨_, made', tells⟩ := exists_ofMessage transferable sender
  rw [made, Except.ok.injEq] at made'
  exact made' ▸ tells

/-- Reports that are in order for each sender are the same reports. -/
theorem perm_of_filter {xs ys : List MessageReport}
    (same : ∀ sender : PeerId, xs.filter (·.sender = sender) = ys.filter (·.sender = sender)) :
    xs.Perm ys := by
  rw [List.perm_iff_count]
  intro r
  have own (zs : List MessageReport) : (zs.filter (·.sender = r.sender)).count r = zs.count r :=
    List.count_filter (decide_eq_true rfl)
  rw [← own xs, same, own ys]

end MessageReport

namespace Serve

/-- So many messages are received, until no sender remains: what is reported, and the links that are
left. -/
inductive Run {σ : Type} [Inbox σ] : Nat → List PeerId → σ → List MessageReport → σ → Prop where
  | done {s : σ} : Run 0 [] s [] s
  | ended {n : Nat} {remaining : List PeerId} {s t u : σ} {peer : PeerId} {m : KeyValue}
      {reports : List MessageReport} : remaining ≠ [] → KeyValue.receive.Yields s (peer, m) t →
      m.kind = .final → Run n (remaining.filter (· ≠ peer)) t reports u →
      Run (n + 1) remaining s reports u
  | told {n : Nat} {remaining : List PeerId} {s t u : σ} {peer : PeerId} {m : KeyValue}
      {report : MessageReport} {reports : List MessageReport} : remaining ≠ [] →
      KeyValue.receive.Yields s (peer, m) t → m.kind ≠ .final →
      MessageReport.ofMessage peer m = .ok report → Run n remaining t reports u →
      Run (n + 1) remaining s (report :: reports) u

section Run

variable {σ : Type} [Inbox σ] {remaining : List PeerId} {s t : σ} {reports : List MessageReport}

theorem receiveReports_of_run {k n : Nat} (run : Run k remaining s reports t) (enough : k ≤ n) :
    receiveReports n remaining s = (reports, none) := by
  induction run generalizing n with
  | done => cases n <;> rfl
  | @ended k remaining s t u peer m reports some call last later ih =>
    obtain ⟨n, rfl⟩ := Nat.exists_eq_add_of_le' enough
    have call : KeyValue.receive.run.run s = (.ok (peer, m), t) := call
    rw [← Nat.add_assoc, receiveReports, if_neg (by simpa using some), call]
    simp only [last, if_true]
    exact ih (by omega)
  | @told k remaining s t u peer m report reports some call more made later ih =>
    obtain ⟨n, rfl⟩ := Nat.exists_eq_add_of_le' enough
    have call : KeyValue.receive.run.run s = (.ok (peer, m), t) := call
    rw [← Nat.add_assoc, receiveReports, if_neg (by simpa using some), call]
    simp only [more, if_false, made, ih (show k ≤ n + k by omega)]

end Run

/-- Messages of which the last, and no other, announces the end. -/
inductive Ending : List KeyValue → Prop where
  | last {m : KeyValue} : m.kind = .final → Ending [m]
  | cons {m : KeyValue} {ms : List KeyValue} : m.kind ≠ .final → Ending ms → Ending (m :: ms)

theorem ending_cons_iff {m : KeyValue} {ms : List KeyValue} : Ending (m :: ms) ↔
    m.kind = .final ∧ ms = [] ∨ m.kind ≠ .final ∧ Ending ms := by
  constructor
  · intro ending
    cases ending with
    | last last => exact .inl ⟨last, rfl⟩
    | cons more ending => exact .inr ⟨more, ending⟩
  · rintro (⟨last, rfl⟩ | ⟨more, ending⟩)
    · exact .last last
    · exact .cons more ending

/-- What is still to come from a peer. -/
def due (peer : PeerId) (ops : List (PeerId × KeyValue)) : List KeyValue :=
  (ops.filter (·.1 = peer)).map Prod.snd

/-- The remaining senders, and no others, are still to announce their ends. -/
structure Closing (remaining : List PeerId) (ops : List (PeerId × KeyValue)) : Prop where
  known : ∀ op ∈ ops, op.1 ∈ remaining
  ending : ∀ peer ∈ remaining, Ending (due peer ops)

section Closing

variable {remaining : List PeerId} {ops before after : List (PeerId × KeyValue)}
variable {peer q : PeerId} {m : KeyValue}

theorem due_first (first : ∀ op ∈ before, op.1 ≠ peer) :
    due peer (before ++ (peer, m) :: after) = m :: due peer (before ++ after) := by
  simp [due, filter_eq_nil_of_ne first]

theorem due_other (other : q ≠ peer) :
    due q (before ++ (peer, m) :: after) = due q (before ++ after) := by
  simp [due, Ne.symm other]

theorem mem_due_iff : m ∈ due peer ops ↔ (peer, m) ∈ ops := by
  simp [due]

theorem Closing.eq_nil (closing : Closing remaining []) : remaining = [] := by
  rw [List.eq_nil_iff_forall_not_mem]
  intro peer member
  cases closing.ending peer member

theorem Closing.remains (closing : Closing remaining (before ++ (peer, m) :: after)) :
    remaining ≠ [] := List.ne_nil_of_mem (closing.known (peer, m) (by simp))

/-- The last message of a sender has been taken: no other of this sender is left. -/
theorem Closing.ended (closing : Closing remaining (before ++ (peer, m) :: after))
    (first : ∀ op ∈ before, op.1 ≠ peer) (last : m.kind = .final) :
    Closing (remaining.filter (· ≠ peer)) (before ++ after) where
  known op member := by
    have own := closing.ending peer (closing.known (peer, m) (by simp))
    rw [due_first first, ending_cons_iff] at own
    have none : due peer (before ++ after) = [] := (own.resolve_right fun h => h.1 last).2
    have other : op.1 ≠ peer := by
      rintro rfl
      have mine := mem_due_iff.2 member
      simp [none] at mine
    have known := closing.known op (by simp at member ⊢; tauto)
    simpa using ⟨known, other⟩
  ending q member := by
    obtain ⟨member, other⟩ : q ∈ remaining ∧ q ≠ peer := by simpa using member
    have ending := closing.ending q member
    rwa [due_other other] at ending

theorem Closing.told (closing : Closing remaining (before ++ (peer, m) :: after))
    (first : ∀ op ∈ before, op.1 ≠ peer) (more : m.kind ≠ .final) :
    Closing remaining (before ++ after) where
  known op member := closing.known op (by simp at member ⊢; tauto)
  ending q member := by
    have ending := closing.ending q member
    by_cases own : q = peer
    · subst own
      rw [due_first first, ending_cons_iff] at ending
      exact (ending.resolve_left fun h => more h.1).2
    · rwa [due_other own] at ending

end Closing

/-- The messages of a peer that are to be reported. -/
def toTell (peer : PeerId) (ops : List (PeerId × KeyValue)) : List KeyValue :=
  (due peer ops).filter (·.kind ≠ .final)

/-- On links that deliver what they owe, the messages are received until all senders are through, in
one call each, and every sender is reported as it would be alone. -/
theorem exists_run {σ : Type} [Inbox σ] {Owed : Waiting → σ → Prop} (delivers : Delivers Owed)
    {remaining : List PeerId} {ops : List (PeerId × KeyValue)} {w : Waiting} {s : σ}
    (closing : Closing remaining ops) (pending : Pending KeyValue.payloads ops w)
    (transferable : ∀ op ∈ ops, op.2.Transferable) (owed : Owed w s) :
    ∃ reports t, Run ops.length remaining s reports t ∧
      ∀ peer : PeerId, (toTell peer ops).mapM (MessageReport.ofMessage peer) =
        .ok (reports.filter (·.sender = peer)) := by
  induction count : ops.length generalizing remaining ops w s with
  | zero =>
    obtain rfl := List.eq_nil_of_length_eq_zero count
    obtain rfl := closing.eq_nil
    exact ⟨[], s, .done, fun _ => rfl⟩
  | succ n ih =>
    obtain ⟨op, member⟩ := List.exists_mem_of_length_pos (show 0 < ops.length by omega)
    have busy : w op.1 ≠ [] := by
      have own : op ∈ ops.filter (·.1 = op.1) := by simp [member]
      rw [pending op.1]
      intro none
      exact List.cons_ne_nil _ _ (List.flatMap_eq_nil_iff.1 none op own)
    obtain ⟨before, peer, m, after, _, v, u, rfl, first, rfl, call, owed, pending⟩ :=
      pending.receive delivers (fun op member => KeyValue.receives (transferable op member)) owed busy
    have own : m.Transferable := transferable (peer, m) (by simp)
    have others : ∀ op ∈ before ++ after, op.2.Transferable := fun op member =>
      transferable op (by simp at member ⊢; tauto)
    have fewer : (before ++ after).length = n := by simp at count ⊢; omega
    by_cases last : m.kind = .final
    · obtain ⟨reports, t, later, each⟩ :=
        ih (closing.ended first last) pending others owed fewer
      refine ⟨reports, t, .ended closing.remains call last later, fun q => ?_⟩
      rw [← each q]
      by_cases mine : q = peer
      · subst mine
        rw [toTell, due_first first, List.filter_cons_of_neg (by simpa using last), toTell]
      · rw [toTell, due_other mine, toTell]
    · obtain ⟨report, made, tells⟩ := MessageReport.exists_ofMessage own peer
      obtain ⟨reports, t, later, each⟩ := ih (closing.told first last) pending others owed fewer
      refine ⟨report :: reports, t, .told closing.remains call last made later, fun q => ?_⟩
      have each := mapM_eq_ok_iff.1 (each q)
      rw [mapM_eq_ok_iff]
      by_cases mine : q = peer
      · subst mine
        rw [toTell, due_first first, List.filter_cons_of_pos (by simpa using last),
          List.filter_cons_of_pos (by simpa using tells.sender)]
        exact .cons made each
      · have other : report.sender ≠ q := fun same => mine (same.symm.trans tells.sender)
        rw [toTell, due_other mine, List.filter_cons_of_neg (by simpa using other)]
        exact each

end Serve

end GraphRelay
