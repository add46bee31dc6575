import GraphRelay.Transfer.Basic

/-!
# What actions on links come to

An action either comes to a value or is refused, and leaves the links in one state. `Yields` and
`Refuses` say which, and each way to put actions together is taken apart once here. `Chain` is one
step after the other along a list; sending and fetching several payloads are such chains.
-/
namespace GraphRelay

namespace LinkAction

variable {σ α β : Type}

/-- What the action comes to in the state `s`, and the state in which it leaves the links. -/
def outcome (x : LinkAction σ α) (s : σ) : Except Fault α × σ := x.run.run s

/-- In the state `s` the action comes to `a` and leaves the links in the state `t`. -/
def Yields (x : LinkAction σ α) (s : σ) (a : α) (t : σ) : Prop := x.outcome s = (.ok a, t)

/-- In the state `s` the action is refused because of `f` and leaves the links in the state `t`. -/
def Refuses (x : LinkAction σ α) (s : σ) (f : Fault) (t : σ) : Prop := x.outcome s = (.error f, t)

variable {x : LinkAction σ α} {s t u : σ} {a b : α} {e f : Fault}

theorem outcome_bind (x : LinkAction σ α) (g : α → LinkAction σ β) (s : σ) :
    (x >>= g).outcome s = match x.outcome s with
      | (.ok a, t) => (g a).outcome t
      | (.error f, t) => (.error f, t) := by
  change (match x.outcome s with | (r, t) => outcome (ExceptT.bindCont (m := StateM σ) g r) t) = _
  cases x.outcome s with
  | mk r t => cases r <;> rfl

theorem outcome_get (s : σ) : outcome (get : LinkAction σ σ) s = (.ok s, s) := rfl

theorem outcome_set (t s : σ) : outcome (set t : LinkAction σ PUnit) s = (.ok (), t) := rfl

theorem bind_yields {g : α → LinkAction σ β} {b : β} :
    (x >>= g).Yields s b u ↔ ∃ a t, x.Yields s a t ∧ (g a).Yields t b u := by
  rw [Yields, outcome_bind]
  simp only [Yields]
  cases x.outcome s with
  | mk r t => cases r <;> simp [and_assoc]

theorem bind_refuses {g : α → LinkAction σ β} :
    (x >>= g).Refuses s f u ↔ x.Refuses s f u ∨ ∃ a t, x.Yields s a t ∧ (g a).Refuses t f u := by
  rw [Refuses, outcome_bind]
  simp only [Yields, Refuses]
  cases x.outcome s with
  | mk r t => cases r <;> simp [and_assoc]

theorem pure_yields : (pure a : LinkAction σ α).Yields s b t ↔ b = a ∧ t = s := by
  change (Except.ok a, s) = _ ↔ _
  rw [Prod.mk.injEq, Except.ok.injEq, eq_comm (a := a), eq_comm (a := s)]

theorem not_pure_refuses : ¬(pure a : LinkAction σ α).Refuses s f t := nofun

theorem not_throw_yields : ¬(throw f : LinkAction σ α).Yields s a t := nofun

theorem throw_refuses : (throw f : LinkAction σ α).Refuses s e t ↔ e = f ∧ t = s := by
  change (Except.error f, s) = _ ↔ _
  rw [Prod.mk.injEq, Except.error.injEq, eq_comm (a := f), eq_comm (a := s)]

theorem lift_yields {x : Except Fault α} :
    (liftM x : LinkAction σ α).Yields s a t ↔ x = .ok a ∧ t = s := by
  change (x, s) = _ ↔ _
  rw [Prod.mk.injEq, eq_comm (a := s)]

theorem lift_refuses {x : Except Fault α} :
    (liftM x : LinkAction σ α).Refuses s f t ↔ x = .error f ∧ t = s := by
  change (x, s) = _ ↔ _
  rw [Prod.mk.injEq, eq_comm (a := s)]

/-- A check in front of an action: it goes on where `p` fails. -/
theorem unless_yields {p : Prop} [Decidable p] {g : Unit → LinkAction σ α} :
    (if p then (throw f : LinkAction σ Unit) >>= g else g ()).Yields s a t ↔
      ¬p ∧ (g ()).Yields s a t := by
  by_cases hp : p
  · simp [hp, not_throw_yields]
  · simp [hp]

end LinkAction

section Chain

variable {σ β : Type} {step : β → σ → σ → Prop}

/-- One step after the other, for the elements of a list in order. -/
def Chain (step : β → σ → σ → Prop) : List β → σ → σ → Prop
  | [], s, t => t = s
  | b :: bs, s, t => ∃ u, step b s u ∧ Chain step bs u t

theorem Chain.one {b : β} {s t : σ} (now : step b s t) : Chain step [b] s t := ⟨t, now, rfl⟩

theorem chain_append {bs cs : List β} {s t : σ} :
    Chain step (bs ++ cs) s t ↔ ∃ u, Chain step bs s u ∧ Chain step cs u t := by
  induction bs generalizing s with
  | nil => simp [Chain]
  | cons b bs ih =>
    simp only [List.cons_append, Chain, ih]
    constructor
    · rintro ⟨u, first, v, later, last⟩
      exact ⟨v, ⟨u, first, later⟩, last⟩
    · rintro ⟨v, ⟨u, first, later⟩, last⟩
      exact ⟨u, first, v, later, last⟩

/-- What is true of the steps taken so far, and stays true with each further step. -/
theorem Chain.keeps {P : List β → σ → Prop} {past bs : List β} {s t : σ} (run : Chain step bs s t)
    (first : P past s) (kept : ∀ past b s t, P past s → step b s t → P (past ++ [b]) t) :
    P (past ++ bs) t := by
  induction bs generalizing past s with
  | nil =>
    obtain rfl : t = s := run
    rwa [List.append_nil]
  | cons b bs ih =>
    obtain ⟨u, now, later⟩ := run
    have all := ih later (kept past b s u first now)
    rwa [List.append_assoc, List.singleton_append] at all

theorem Chain.preserves {P : σ → Prop} {bs : List β} {s t : σ} (run : Chain step bs s t)
    (first : P s) (kept : ∀ b s t, P s → step b s t → P t) : P t := by
  induction bs generalizing s with
  | nil =>
    obtain rfl : t = s := run
    exact first
  | cons b bs ih =>
    obtain ⟨u, now, later⟩ := run
    exact ih later (kept b s u first now)

/-- What every step asks of its element alone can be asked beforehand. -/
theorem chain_and {p : β → Prop} {bs : List β} {s t : σ} :
    Chain (fun b s t => p b ∧ step b s t) bs s t ↔ (∀ b ∈ bs, p b) ∧ Chain step bs s t := by
  induction bs generalizing s with
  | nil => simp [Chain]
  | cons b bs ih =>
    simp only [Chain, ih, List.forall_mem_cons]
    constructor
    · rintro ⟨u, ⟨own, first⟩, others, later⟩
      exact ⟨⟨own, others⟩, u, first, later⟩
    · rintro ⟨⟨own, others⟩, u, first, later⟩
      exact ⟨u, ⟨own, first⟩, others, later⟩

/-- Steps of a kind lead from one state to another. -/
def LeadsBy (step : β → σ → σ → Prop) (kind : β → Prop) (s t : σ) : Prop :=
  ∃ bs, (∀ b ∈ bs, kind b) ∧ Chain step bs s t

namespace LeadsBy

variable {kind : β → Prop} {b : β} {s t u : σ}

theorem refl (s : σ) : LeadsBy step kind s s := ⟨[], nofun, rfl⟩

theorem one (now : step b s t) (own : kind b) : LeadsBy step kind s t :=
  ⟨[b], fun _ member => List.mem_singleton.1 member ▸ own, .one now⟩

theorem trans (first : LeadsBy step kind s t) (later : LeadsBy step kind t u) :
    LeadsBy step kind s u := by
  obtain ⟨bs, own, steps⟩ := first
  obtain ⟨cs, own', steps'⟩ := later
  exact ⟨bs ++ cs, List.forall_mem_append.2 ⟨own, own'⟩, chain_append.2 ⟨t, steps, steps'⟩⟩

/-- What stays true with each step of the kind. -/
theorem preserves {P : σ → Prop} (leads : LeadsBy step kind s t) (first : P s)
    (kept : ∀ b s t, kind b → P s → step b s t → P t) : P t := by
  obtain ⟨bs, own, steps⟩ := leads
  have both : Chain (fun b s t => kind b ∧ step b s t) bs s t := chain_and.2 ⟨own, steps⟩
  exact both.preserves first fun b s t before now => kept b s t now.1 before now.2

end LeadsBy

/-- What a list of steps says of them, with one step more. -/
theorem filterMap_concat {γ : Type} (tells : β → Option γ) (bs : List β) (b : β) :
    (bs ++ [b]).filterMap tells = bs.filterMap tells ++ (tells b).toList := by
  rw [List.filterMap_append]
  cases told : tells b <;> simp [told]

end Chain

variable {σ : Type}

/-- The payloads leave for `peer` in order. -/
def Sends [Outbox σ] (peer : PeerId) : List Bytes → σ → σ → Prop :=
  Chain fun payload s t => (Outbox.send peer payload).Yields s () t

/-- The links take these payloads for `peer` one after the other. -/
def Admits [Outbox σ] (peer : PeerId) (payloads : List Bytes) (s : σ) : Prop :=
  ∃ t, Sends peer payloads s t

/-- Sending what several operations travel as is sending one operation after the other. -/
theorem sends_flatMap [Outbox σ] {α : Type} {travels : α → List Bytes} {ops : List α}
    {peer : PeerId} {s t : σ} :
    Sends peer (ops.flatMap travels) s t ↔ Chain (fun op => Sends peer (travels op)) ops s t := by
  induction ops generalizing s with
  | nil => exact Iff.rfl
  | cons op ops ih =>
    rw [List.flatMap_cons, Sends, chain_append]
    exact exists_congr fun u => and_congr_right' ih

/-- The payloads are the next of `peer`, in order. -/
def Fetches [Inbox σ] (peer : PeerId) : List Bytes → σ → σ → Prop :=
  Chain fun payload s t => (Inbox.receiveFrom peer).Yields s payload t

/-- A payload of whichever peer comes next, and then further payloads of that peer. -/
def Hears [Inbox σ] (peer : PeerId) (first : Bytes) (others : List Bytes) (s t : σ) : Prop :=
  ∃ u, Inbox.receive.Yields s (peer, first) u ∧ Fetches peer others u t

namespace Transmission

variable [Outbox σ] {peer : PeerId} {s t : σ} {f : Fault}

theorem deliver_cons (payload : Bytes) (payloads : List Bytes) (refusal : Option Fault) :
    deliver (σ := σ) ⟨payload :: payloads, refusal⟩ peer =
      Outbox.send peer payload >>= fun _ => deliver ⟨payloads, refusal⟩ peer := by
  simp [deliver]

theorem deliver_yields {m : Transmission} :
    (m.deliver peer).Yields s () t ↔ m.refusal = none ∧ Sends peer m.payloads s t := by
  obtain ⟨payloads, refusal⟩ := m
  induction payloads generalizing s with
  | nil =>
    cases refusal with
    | none => simp [deliver, LinkAction.pure_yields, Sends, Chain]
    | some f => simp [deliver, LinkAction.not_throw_yields]
  | cons payload payloads ih =>
    rw [deliver_cons, LinkAction.bind_yields]
    simp only [ih, Sends, Chain]
    constructor
    · rintro ⟨⟨⟩, u, first, whole, later⟩
      exact ⟨whole, u, first, later⟩
    · rintro ⟨whole, u, first, later⟩
      exact ⟨(), u, first, whole, later⟩

/-- A refused transmission has sent what stands before the refusal: of a link, or its own at the
end. -/
theorem deliver_refuses {m : Transmission} :
    (m.deliver peer).Refuses s f t ↔
      (m.refusal = some f ∧ Sends peer m.payloads s t) ∨
      ∃ sent payload unsent u, m.payloads = sent ++ payload :: unsent ∧ Sends peer sent s u ∧
        (Outbox.send peer payload).Refuses u f t := by
  obtain ⟨payloads, refusal⟩ := m
  induction payloads generalizing s with
  | nil =>
    cases refusal with
    | none => simp [deliver, LinkAction.not_pure_refuses]
    | some e => simp [deliver, LinkAction.throw_refuses, Sends, Chain, eq_comm (a := f)]
  | cons payload payloads ih =>
    rw [deliver_cons, LinkAction.bind_refuses]
    simp only [ih]
    constructor
    · rintro (now | ⟨⟨⟩, u, first, ⟨own, later⟩ | ⟨sent, next, unsent, v, rfl, later, refused⟩⟩)
      · exact .inr ⟨[], payload, payloads, s, rfl, rfl, now⟩
      · exact .inl ⟨own, u, first, later⟩
      · exact .inr ⟨payload :: sent, next, unsent, v, rfl, ⟨u, first, later⟩, refused⟩
    · rintro (⟨own, u, first, later⟩ | ⟨sent, next, unsent, v, split, later, refused⟩)
      · exact .inr ⟨(), u, first, .inl ⟨own, later⟩⟩
      · cases sent with
        | nil =>
          obtain ⟨rfl, rfl⟩ := List.cons.inj split
          obtain rfl : v = s := later
          exact .inl refused
        | cons sent₁ sent =>
          obtain ⟨rfl, rfl⟩ := List.cons.inj split
          obtain ⟨u, first, later⟩ := later
          exact .inr ⟨(), u, first, .inr ⟨sent, next, unsent, v, rfl, later, refused⟩⟩

end Transmission

end GraphRelay
