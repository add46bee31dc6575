import GraphRelay.Proofs.Wire.Words
import GraphRelay.Wire.Reader

/-!
# What readers accept

`Reads r valid print` says that a reader accepts exactly the printed form of the valid values and
stops right behind it, so that a format read this way has one form for each value. `Guarded r` says
that whatever else a reader finds is refused as a violation of the protocol.
-/
namespace GraphRelay.Wire.Reader

variable {α β : Type}

theorem bind_eq_ok {x : Reader α} {f : α → Reader β} {c c'' : Cursor} {b : β} :
    (x >>= f) c = .ok (b, c'') ↔ ∃ a c', x c = .ok (a, c') ∧ f a c' = .ok (b, c'') := by
  change (x c).bind (fun p => f p.1 p.2) = _ ↔ _
  cases x c with
  | error e => simp [Except.bind]
  | ok p =>
    constructor
    · exact fun h => ⟨p.1, p.2, rfl, h⟩
    · rintro ⟨a, c', hp, h⟩
      cases hp
      exact h

theorem bind_eq_error {x : Reader α} {f : α → Reader β} {c : Cursor} {e : Fault} :
    (x >>= f) c = .error e ↔
      x c = .error e ∨ ∃ a c', x c = .ok (a, c') ∧ f a c' = .error e := by
  change (x c).bind (fun p => f p.1 p.2) = _ ↔ _
  cases x c with
  | error e => simp [Except.bind]
  | ok p =>
    constructor
    · exact fun h => .inr ⟨p.1, p.2, rfl, h⟩
    · rintro (h | ⟨a, c', hp, h⟩)
      · cases h
      · cases hp
        exact h

theorem bind_of_ok {x : Reader α} {f : α → Reader β} {c c' : Cursor} {a : α}
    (h : x c = .ok (a, c')) : (x >>= f) c = f a c' := by
  change (x c).bind (fun p => f p.1 p.2) = _
  rw [h]
  rfl

theorem bind_of_error {x : Reader α} {f : α → Reader β} {c : Cursor} {e : Fault}
    (h : x c = .error e) : (x >>= f) c = .error e :=
  bind_eq_error.2 (.inl h)

theorem pure_eq_ok {a b : α} {c c' : Cursor} :
    (pure a : Reader α) c = .ok (b, c') ↔ b = a ∧ c' = c := by
  change Except.ok (a, c) = _ ↔ _
  rw [Except.ok.injEq, Prod.mk.injEq, eq_comm (a := a), eq_comm (a := c)]

theorem pure_ne_error {a : α} {c : Cursor} {e : Fault} : (pure a : Reader α) c ≠ .error e :=
  nofun

theorem throw_eq_error {c : Cursor} {e e' : Fault} :
    (throw e : Reader α) c = .error e' ↔ e = e' := by
  change Except.error e = _ ↔ _
  rw [Except.error.injEq]

theorem throw_ne_ok {c : Cursor} {e : Fault} {p : α × Cursor} : (throw e : Reader α) c ≠ .ok p :=
  nofun

theorem lift_eq_ok {x : Except Fault α} {c c' : Cursor} {a : α} :
    (liftM x : Reader α) c = .ok (a, c') ↔ x = .ok a ∧ c' = c := by
  change (x.bind fun a => .ok (a, c)) = _ ↔ _
  cases x with
  | error e => simp [Except.bind]
  | ok b => simp [Except.bind, eq_comm (a := c)]

theorem lift_eq_error {x : Except Fault α} {c : Cursor} {e : Fault} :
    (liftM x : Reader α) c = .error e ↔ x = .error e := by
  change (x.bind fun a => .ok (a, c)) = _ ↔ _
  cases x <;> simp [Except.bind]

theorem map_eq_ok {f : α → β} {r : Reader α} {c c' : Cursor} {b : β} :
    (f <$> r) c = .ok (b, c') ↔ ∃ a, r c = .ok (a, c') ∧ f a = b := by
  rw [← bind_pure_comp, bind_eq_ok]
  constructor
  · rintro ⟨a, c'', hr, hf⟩
    obtain ⟨rfl, rfl⟩ := pure_eq_ok.1 hf
    exact ⟨a, hr, rfl⟩
  · rintro ⟨a, hr, rfl⟩
    exact ⟨a, c', hr, rfl⟩

theorem map_of_error {f : α → β} {r : Reader α} {c : Cursor} {e : Fault} (h : r c = .error e) :
    (f <$> r) c = .error e := by
  rw [← bind_pure_comp]
  exact bind_of_error h

theorem lift_of_ok {x : Except Fault α} {c : Cursor} {a : α} (h : x = .ok a) :
    (liftM x : Reader α) c = .ok (a, c) :=
  lift_eq_ok.2 ⟨h, rfl⟩

theorem take_of_lt {n : Nat} {c : Cursor} (short : c.rest.length < n) :
    take n c = .error (.truncated n c.offset c.total) :=
  if_neg (Nat.not_le.2 short)

theorem finish_of_ne_nil {c : Cursor} (more : c.rest ≠ []) :
    finish c = .error (.trailing c.rest.length c.total) :=
  if_neg (by simpa using more)

/-- `r` accepts exactly what `print` writes for a value in `valid` and stops behind it. -/
def Reads (r : Reader α) (valid : α → Prop) (print : α → Bytes) : Prop :=
  ∀ c a c', r c = .ok (a, c') ↔ valid a ∧ c.rest = print a ++ c'.rest ∧ c'.total = c.total

theorem Reads.accepts {r : Reader α} {valid : α → Prop} {print : α → Bytes}
    (h : Reads r valid print) {a : α} (ha : valid a) (total : Nat) (rest : Bytes) :
    r ⟨total, print a ++ rest⟩ = .ok (a, ⟨total, rest⟩) :=
  (h _ a ⟨total, rest⟩).2 ⟨ha, rfl, rfl⟩

/-- Every refusal of `r` is a violation of the protocol. -/
def Guarded (r : Reader α) : Prop := ∀ c e, r c = .error e → e.kind = .protocol

theorem take_reads (n : Nat) : Reads (take n) (fun bs => bs.length = n) id := by
  intro c bs c'
  unfold take
  split
  · rename_i enough
    simp only [Except.ok.injEq, Prod.mk.injEq]
    constructor
    · rintro ⟨rfl, rfl⟩
      simp [enough]
    · rintro ⟨rfl, split, total⟩
      cases c'
      simp_all
  · rename_i short
    simp only [reduceCtorEq, false_iff]
    rintro ⟨rfl, split, -⟩
    simp [split] at short

theorem take_guarded (n : Nat) : Guarded (take n) := by
  intro c e h
  unfold take at h
  split at h
  · cases h
  · cases h
    rfl

/-- A word that `encode` and `decode` turn into each other is read back. -/
theorem word_reads {width : Nat} {encode : α → Bytes} {decode : Bytes → α} {valid : α → Prop}
    (length_encode : ∀ a, (encode a).length = width)
    (decode_encode : ∀ a, valid a → decode (encode a) = a)
    (encode_decode : ∀ bs, bs.length = width → valid (decode bs) ∧ encode (decode bs) = bs) :
    Reads (decode <$> take width) valid encode := by
  intro c a c'
  rw [map_eq_ok]
  constructor
  · rintro ⟨bs, hr, rfl⟩
    obtain ⟨length, split, total⟩ := (take_reads width c bs c').1 hr
    obtain ⟨isValid, same⟩ := encode_decode bs length
    rw [same]
    exact ⟨isValid, split, total⟩
  · rintro ⟨isValid, split, total⟩
    exact ⟨encode a, (take_reads width c _ c').2 ⟨length_encode a, split, total⟩,
      decode_encode a isValid⟩

theorem int32_reads : Reads int32 (fun _ => True) Wire.int32 :=
  word_reads length_int32 (fun v _ => toInt32_int32 v) fun _ h => ⟨trivial, int32_toInt32 h⟩

theorem int64_reads : Reads int64 (fun _ => True) Wire.int64 :=
  word_reads length_int64 (fun v _ => toInt64_int64 v) fun _ h => ⟨trivial, int64_toInt64 h⟩

theorem count_reads : Reads count (· < UInt64.size) Wire.count :=
  word_reads length_count (fun _ h => unword_word_of_lt h) fun bs h =>
    ⟨by simpa [h] using unword_lt bs, by rw [Wire.count, ← h, word_unword]⟩

theorem map_guarded {r : Reader α} {f : α → β} (h : Guarded r) : Guarded (f <$> r) := by
  intro c e he
  rw [← bind_pure_comp, bind_eq_error] at he
  rcases he with he | ⟨_, _, -, he⟩
  · exact h c e he
  · exact absurd he pure_ne_error

theorem bind_guarded {r : Reader α} {f : α → Reader β} (hr : Guarded r)
    (hf : ∀ a, Guarded (f a)) : Guarded (r >>= f) := by
  intro c e he
  rcases bind_eq_error.1 he with he | ⟨a, c', -, he⟩
  · exact hr c e he
  · exact hf a c' e he

theorem pure_guarded (a : α) : Guarded (pure a) := fun _ _ h => absurd h pure_ne_error

theorem throw_guarded {e : Fault} (h : e.kind = .protocol) : Guarded (throw e : Reader α) := by
  intro c e' he
  rwa [← throw_eq_error.1 he]

theorem ite_guarded {p : Prop} [Decidable p] {r s : Reader α} (hr : Guarded r) (hs : Guarded s) :
    Guarded (if p then r else s) := by
  split
  · exact hr
  · exact hs

theorem int32_guarded : Guarded int32 := map_guarded (take_guarded 4)

theorem int64_guarded : Guarded int64 := map_guarded (take_guarded 8)

theorem count_guarded : Guarded count := map_guarded (take_guarded 8)

theorem remaining_guarded : Guarded remaining := nofun

theorem finish_guarded : Guarded finish := by
  intro c e h
  unfold finish at h
  split at h
  · cases h
  · cases h
    rfl

theorem remaining_eq_ok {c c' : Cursor} {n : Nat} :
    remaining c = .ok (n, c') ↔ n = c.rest.length ∧ c' = c := by
  rw [remaining, Except.ok.injEq, Prod.mk.injEq, eq_comm (b := n), eq_comm (b := c')]

theorem finish_eq_ok {c c' : Cursor} {u : Unit} :
    finish c = .ok (u, c') ↔ c.rest = [] ∧ c' = c := by
  unfold finish
  split
  · rename_i empty
    simp [List.isEmpty_iff.1 empty, eq_comm (a := c)]
  · rename_i more
    rw [List.isEmpty_iff] at more
    simp [more]

/-- A check in front of a reader: the values that pass are those that fail `p`. -/
theorem unless_eq_ok {p : Prop} [Decidable p] {e : Fault} {r : Unit → Reader α} {c c' : Cursor}
    {a : α} :
    (if p then (throw e : Reader Unit) >>= r else r ()) c = .ok (a, c') ↔
      ¬p ∧ r () c = .ok (a, c') := by
  by_cases hp : p
  · simp [hp, bind_eq_ok, throw_ne_ok]
  · simp [hp]

theorem unless_guarded {p : Prop} [Decidable p] {e : Fault} {r : Unit → Reader α}
    (he : e.kind = .protocol) (hr : ∀ u, Guarded (r u)) :
    Guarded (if p then (throw e : Reader Unit) >>= r else r ()) :=
  ite_guarded (bind_guarded (throw_guarded he) hr) (hr ())

theorem many_reads {r : Reader α} {valid : α → Prop} {print : α → Bytes}
    (h : Reads r valid print) (n : Nat) :
    Reads (many n r) (fun as => as.length = n ∧ ∀ a ∈ as, valid a) (·.flatMap print) := by
  induction n with
  | zero =>
    intro c as c'
    rw [many, pure_eq_ok]
    cases c
    cases c'
    simp only [List.length_eq_zero_iff, Cursor.mk.injEq]
    constructor
    · rintro ⟨rfl, rfl, rfl⟩
      simp
    · rintro ⟨⟨rfl, -⟩, split, rfl⟩
      simpa using split.symm
  | succ n ih =>
    intro c as c''
    simp only [many, bind_eq_ok, pure_eq_ok]
    constructor
    · rintro ⟨a, c', hr, rest, _, hmany, rfl, rfl⟩
      obtain ⟨ha, split, total⟩ := (h c a c').1 hr
      obtain ⟨⟨length, hrest⟩, split', total'⟩ := (ih c' rest _).1 hmany
      refine ⟨⟨by simp [length], ?_⟩, ?_, total'.trans total⟩
      · simpa [ha] using hrest
      · rw [split, split', List.flatMap_cons, List.append_assoc]
    · rintro ⟨⟨length, hvalid⟩, split, total⟩
      cases as with
      | nil => simp at length
      | cons a rest =>
        rw [List.flatMap_cons, List.append_assoc] at split
        have first := (h c a ⟨c.total, rest.flatMap print ++ c''.rest⟩).2
          ⟨hvalid a (by simp), split, rfl⟩
        have others := (ih ⟨c.total, rest.flatMap print ++ c''.rest⟩ rest c'').2
          ⟨⟨by simpa using length, fun b hb => hvalid b (by simp [hb])⟩, rfl, total⟩
        exact ⟨a, _, first, rest, c'', others, rfl, rfl⟩

theorem many_guarded {r : Reader α} (h : Guarded r) (n : Nat) : Guarded (many n r) := by
  induction n with
  | zero => exact pure_guarded []
  | succ n ih => exact bind_guarded h fun _ => bind_guarded ih fun _ => pure_guarded _

theorem run_eq_ok {r : Reader α} {bs : Bytes} {a : α} :
    run r bs = .ok a ↔ ∃ c, r (.start bs) = .ok (a, c) := by
  unfold run
  cases r (.start bs) with
  | error e => simp
  | ok p => simp [Prod.ext_iff]

theorem run_eq_error {r : Reader α} {bs : Bytes} {e : Fault} :
    run r bs = .error e ↔ r (.start bs) = .error e := by
  unfold run
  cases r (.start bs) <;> simp

end GraphRelay.Wire.Reader
