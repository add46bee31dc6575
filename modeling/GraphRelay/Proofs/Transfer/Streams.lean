import GraphRelay.Proofs.Transfer.InOrder
import Mathlib.Data.List.Forall2

/-!
# Streams of operations

Each operation travels as some payloads. On links that keep the order whole operations wait at every
peer, so receiving until nothing waits brings for each peer what was sent to it, in order. Which peer
comes next is up to the links.
-/
namespace GraphRelay

open FifoInbox FifoLinks

variable {α β σ : Type}

theorem filter_eq_nil_of_ne {ops : List (PeerId × α)} {peer : PeerId}
    (other : ∀ op ∈ ops, op.1 ≠ peer) : ops.filter (·.1 = peer) = [] :=
  List.filter_eq_nil_iff.2 fun op member => by simpa using other op member

/-- What waits at each peer are the payloads of the operations for it, in order. -/
def Pending (payloads : α → List Bytes) (ops : List (PeerId × α)) (w : Waiting) : Prop :=
  ∀ peer, w peer = (ops.filter (·.1 = peer)).flatMap fun op => payloads op.2

namespace Pending

variable {payloads : α → List Bytes} {ops before after : List (PeerId × α)} {w v : Waiting}
  {peer : PeerId} {a : α}

theorem enqueued (pending : Pending payloads ops w) (sent : Enqueued peer (payloads a) w v) :
    Pending payloads (ops ++ [(peer, a)]) v := by
  intro q
  rw [List.filter_append, List.flatMap_append, ← pending q]
  by_cases own : peer = q
  · subst own
    simp [sent.own]
  · simp [sent.others q (Ne.symm own), own]

theorem front (pending : Pending payloads (before ++ (peer, a) :: after) w)
    (first : ∀ op ∈ before, op.1 ≠ peer) :
    w peer = payloads a ++ (after.filter (·.1 = peer)).flatMap fun op => payloads op.2 := by
  rw [pending peer, List.filter_append, filter_eq_nil_of_ne first, List.nil_append,
    List.filter_cons_of_pos (by simp), List.flatMap_cons]

theorem dequeued (pending : Pending payloads (before ++ (peer, a) :: after) w)
    (first : ∀ op ∈ before, op.1 ≠ peer) (taken : Dequeued peer (payloads a) w v) :
    Pending payloads (before ++ after) v := by
  intro q
  by_cases own : q = peer
  · subst own
    have rest := taken.own.symm.trans (pending.front first)
    rw [List.filter_append, filter_eq_nil_of_ne first, List.nil_append]
    exact List.append_cancel_left rest
  · rw [taken.others q own, pending q]
    simp [Ne.symm own]

/-- Where something waits there is a first operation. -/
theorem exists_first (pending : Pending payloads ops w) (busy : w peer ≠ []) :
    ∃ before a after, ops = before ++ (peer, a) :: after ∧ ∀ op ∈ before, op.1 ≠ peer := by
  rw [pending peer] at busy
  cases found : ops.filter (·.1 = peer) with
  | nil => simp [found] at busy
  | cons op rest =>
    obtain ⟨before, after, rfl, first, own, -⟩ := List.filter_eq_cons_iff.1 found
    obtain ⟨_, a⟩ := op
    obtain rfl : _ = peer := by simpa using own
    exact ⟨before, a, after, rfl, fun op member => by simpa using first op member⟩

end Pending

section Receiving

variable [Inbox σ] {next : LinkAction σ (PeerId × β)} {payloads : α → List Bytes}
  {Arrives : α → β → Prop}

/-- Where the payloads of `a` come next, `next` comes to what `a` arrives as. -/
def Receives (next : LinkAction σ (PeerId × β)) (payloads : α → List Bytes) (Arrives : α → β → Prop)
    (a : α) : Prop :=
  ∃ first others, payloads a = first :: others ∧ ∀ peer s t, Hears peer first others s t →
    ∃ b, Arrives a b ∧ next.Yields s (peer, b) t

variable {ops : List (PeerId × α)} {s : σ} {peer : PeerId}

/-- One call takes the first operation of some peer, whole. -/
theorem Pending.receive {Owed : Waiting → σ → Prop} {w : Waiting} (delivers : Delivers Owed)
    (pending : Pending payloads ops w) (received : ∀ op ∈ ops, Receives next payloads Arrives op.2)
    (owed : Owed w s) (busy : w peer ≠ []) :
    ∃ before heard a after b v t, ops = before ++ (heard, a) :: after ∧
      (∀ op ∈ before, op.1 ≠ heard) ∧ Arrives a b ∧ next.Yields s (heard, b) t ∧
      Owed v t ∧ Pending payloads (before ++ after) v := by
  obtain ⟨peer, payload, x, u, heard, taken, owed⟩ := delivers.receive owed busy
  have here : w peer ≠ [] := by simp [taken.own]
  obtain ⟨before, a, after, rfl, first⟩ := pending.exists_first here
  obtain ⟨_, others, split, arrives⟩ := received (peer, a) (by simp)
  have front := pending.front first
  rw [taken.own, split, List.singleton_append, List.cons_append, List.cons.injEq] at front
  obtain ⟨rfl, behind⟩ := front
  obtain ⟨v, t, fetched, rest, owed⟩ := delivers.exists_fetches owed behind
  obtain ⟨b, arrived, call⟩ := arrives peer s t ⟨u, heard, fetched⟩
  refine ⟨before, peer, a, after, b, v, t, rfl, first, arrived, call, owed, ?_⟩
  exact pending.dequeued first (split ▸ taken.append rest)

variable [FifoInbox σ]

/-- Receiving until nothing waits: what each call came to, in order. -/
inductive Drains {γ : Type} (next : LinkAction σ γ) : σ → List γ → σ → Prop where
  | idle {s : σ} (h : Idle s) : Drains next s [] s
  | next {s t u : σ} {c : γ} {cs : List γ} (more : ¬Idle s) (call : next.Yields s c t)
      (rest : Drains next t cs u) : Drains next s (c :: cs) u

theorem Drains.idle_end {γ : Type} {call : LinkAction σ γ} {cs : List γ} {t : σ}
    (h : Drains call s cs t) : Idle t := by
  induction h with
  | idle idle => exact idle
  | next _ _ _ ih => exact ih

theorem Pending.idle_iff (pending : Pending payloads ops (waiting s))
    (received : ∀ op ∈ ops, Receives next payloads Arrives op.2) : Idle s ↔ ops = [] := by
  constructor
  · intro idle
    cases ops with
    | nil => rfl
    | cons op rest =>
      obtain ⟨first, others, split, -⟩ := received op List.mem_cons_self
      have whole : Pending payloads ([] ++ (op.1, op.2) :: rest) (waiting s) := pending
      have none := whole.front nofun
      rw [idle op.1, split] at none
      cases none
  · rintro rfl peer
    rw [pending peer]
    rfl

theorem Pending.drains (pending : Pending payloads ops (waiting s))
    (received : ∀ op ∈ ops, Receives next payloads Arrives op.2) (sound : Sound s) :
    ∃ got t, Drains next s got t ∧ got.length = ops.length ∧
      ∀ peer, List.Forall₂ (fun op arrival => op.1 = arrival.1 ∧ Arrives op.2 arrival.2)
        (ops.filter (·.1 = peer)) (got.filter (·.1 = peer)) := by
  induction count : ops.length generalizing ops s with
  | zero =>
    obtain rfl := List.eq_nil_of_length_eq_zero count
    exact ⟨[], s, .idle ((pending.idle_iff received).2 rfl), rfl, fun _ => .nil⟩
  | succ n ih =>
    have more : ¬Idle s := fun idle => by
      rw [(pending.idle_iff received).1 idle] at count
      cases count
    obtain ⟨peer, busy⟩ : ∃ peer, waiting s peer ≠ [] := not_forall.1 more
    obtain ⟨before, peer, a, after, b, _, u, rfl, first, arrived, call, ⟨sound, rfl⟩, rest⟩ :=
      pending.receive delivers_waiting received ⟨sound, rfl⟩ busy
    have others : ∀ op ∈ before ++ after, Receives next payloads Arrives op.2 := fun op member =>
      received op (by simp only [List.mem_append, List.mem_cons] at member ⊢; tauto)
    obtain ⟨got, t, drains, length, each⟩ := ih rest others sound (by simp at count ⊢; omega)
    refine ⟨(peer, b) :: got, t, .next more call drains, by simp [length], fun q => ?_⟩
    have each := each q
    by_cases own : peer = q
    · subst own
      rw [List.filter_append, filter_eq_nil_of_ne first, List.nil_append] at each ⊢
      rw [List.filter_cons_of_pos (by simp), List.filter_cons_of_pos (by simp)]
      exact .cons ⟨rfl, arrived⟩ each
    · rw [List.filter_append] at each ⊢
      rw [List.filter_cons_of_neg (by simpa using own),
        List.filter_cons_of_neg (by simpa using own)]
      exact each

/-- Where only one peer has something waiting, its operations come in order. -/
theorem drains_of_peer {peer : PeerId} {as : List α} (sound : Sound s)
    (own : waiting s peer = as.flatMap payloads) (others : ∀ q, q ≠ peer → waiting s q = [])
    (received : ∀ a ∈ as, Receives next payloads Arrives a) :
    ∃ got t, Drains next s (got.map (peer, ·)) t ∧ List.Forall₂ Arrives as got := by
  have all : ∀ {γ : Type} (cs : List γ), (cs.map (peer, ·)).filter (·.1 = peer) = cs.map (peer, ·) :=
    fun cs => List.filter_eq_self.2 (by simp)
  have pending : Pending payloads (as.map (peer, ·)) (waiting s) := by
    intro q
    by_cases same : q = peer
    · subst same
      rw [own, all, List.flatMap_map]
    · rw [others q same, filter_eq_nil_of_ne (by simpa using fun _ _ => Ne.symm same)]
      rfl
  obtain ⟨got, t, drains, length, each⟩ := pending.drains (by simpa using received) sound
  have each := each peer
  rw [all] at each
  have mine : got.filter (·.1 = peer) = got :=
    List.filter_sublist.eq_of_length (each.length_eq.symm.trans length.symm)
  have named : (got.map Prod.snd).map (peer, ·) = got := by
    rw [List.map_map]
    refine (List.map_congr_left fun arrival member => ?_).trans (List.map_id _)
    have from_peer : arrival.1 = peer := by simpa using List.filter_eq_self.1 mine arrival member
    rw [← from_peer]
    rfl
  rw [mine, List.forall₂_map_left_iff] at each
  refine ⟨got.map Prod.snd, t, ?_, List.forall₂_map_right_iff.2 (each.imp fun _ _ h => h.2)⟩
  rw [named]
  exact drains

end Receiving

section Sending

variable [Outbox σ] [Inbox σ] [FifoLinks σ] {payloads : α → List Bytes}
  {ops sent : List (PeerId × α)} {s t : σ}

/-- What is sent comes behind what is pending, and every payload has a length that is a machine
word. -/
theorem Pending.sends (pending : Pending payloads ops (waiting s)) (sound : Sound s)
    (sends : Chain (fun op => Sends op.1 (payloads op.2)) sent s t) :
    Pending payloads (ops ++ sent) (waiting t) ∧ Sound t ∧
      ∀ op ∈ sent, ∀ payload ∈ payloads op.2, payload.length < addressable := by
  induction sent generalizing ops s with
  | nil =>
    obtain rfl : t = s := sends
    exact ⟨by simpa using pending, sound, nofun⟩
  | cons op sent ih =>
    obtain ⟨u, first, later⟩ := sends
    obtain ⟨sound, short⟩ := first.sound sound
    obtain ⟨all, sound, shorter⟩ := ih (pending.enqueued first.enqueued) sound later
    exact ⟨by simpa using all, sound, List.forall_mem_cons.2 ⟨short, shorter⟩⟩

end Sending

end GraphRelay
