import Mathlib.Data.List.Forall2

/-!
# Going through a list with an operation that may refuse

A traversal succeeds exactly when the operation does on every element, and what refuses it refuses
some element.
-/
namespace GraphRelay

variable {α β ε : Type}

theorem bind_ok_iff {x : Except ε α} {f : α → Except ε β} {b : β} :
    x >>= f = .ok b ↔ ∃ a, x = .ok a ∧ f a = .ok b := by
  cases x <;> simp [bind, Except.bind]

theorem bind_error_iff {x : Except ε α} {f : α → Except ε β} {e : ε} :
    x >>= f = .error e ↔ x = .error e ∨ ∃ a, x = .ok a ∧ f a = .error e := by
  cases x <;> simp [bind, Except.bind]

theorem map_ok_iff {x : Except ε α} {f : α → β} {b : β} :
    x.map f = .ok b ↔ ∃ a, x = .ok a ∧ f a = b := by
  cases x <;> simp [Except.map]

theorem exists_map_ok_iff {x : Except ε α} {f : α → β} :
    (∃ b, x.map f = .ok b) ↔ ∃ a, x = .ok a := by
  cases x <;> simp [Except.map]

theorem map_error_iff {x : Except ε α} {f : α → β} {e : ε} :
    x.map f = .error e ↔ x = .error e := by
  cases x <;> simp [Except.map]

/-- Where success and refusal are told apart by a condition, each has its own consequence. -/
theorem decided_of_cases {x : Except ε α} {passes : Prop} {made : α → Prop} {refused : ε → Prop}
    (h : (∃ a, x = .ok a ∧ passes ∧ made a) ∨ ∃ e, x = .error e ∧ ¬passes ∧ refused e) :
    ((∃ a, x = .ok a) ↔ passes) ∧ (∀ a, x = .ok a → made a) ∧ ∀ e, x = .error e → refused e := by
  obtain ⟨a, rfl, passed, ha⟩ | ⟨e, rfl, failed, he⟩ := h <;> simp_all

theorem mapError_ok_iff {ε' : Type} {x : Except ε α} {f : ε → ε'} {a : α} :
    x.mapError f = .ok a ↔ x = .ok a := by
  cases x <;> simp [Except.mapError]

theorem mapM_eq_ok_iff {f : α → Except ε β} {xs : List α} {ys : List β} :
    xs.mapM f = .ok ys ↔ List.Forall₂ (fun x y => f x = .ok y) xs ys := by
  induction xs generalizing ys with
  | nil =>
    rw [List.mapM_nil, List.forall₂_nil_left_iff]
    exact ⟨fun h => (Except.ok.inj h).symm, fun h => h ▸ rfl⟩
  | cons x xs ih =>
    rw [List.mapM_cons, bind_ok_iff, List.forall₂_cons_left_iff]
    constructor
    · rintro ⟨y, hy, later⟩
      obtain ⟨rest, hrest, done⟩ := bind_ok_iff.1 later
      exact ⟨y, rest, hy, ih.1 hrest, (Except.ok.inj done).symm⟩
    · rintro ⟨y, rest, hy, hrest, rfl⟩
      exact ⟨y, hy, bind_ok_iff.2 ⟨rest, ih.2 hrest, rfl⟩⟩

theorem exists_mapM_eq_ok_iff {f : α → Except ε β} {xs : List α} :
    (∃ ys, xs.mapM f = .ok ys) ↔ ∀ x ∈ xs, ∃ y, f x = .ok y := by
  simp only [mapM_eq_ok_iff]
  induction xs with
  | nil => exact iff_of_true ⟨[], .nil⟩ (by simp)
  | cons x xs ih =>
    rw [List.forall_mem_cons, ← ih]
    simp only [List.forall₂_cons_left_iff]
    constructor
    · rintro ⟨_, y, ys, here, later, rfl⟩
      exact ⟨⟨y, here⟩, ys, later⟩
    · rintro ⟨⟨y, here⟩, ys, later⟩
      exact ⟨y :: ys, y, ys, here, later, rfl⟩

theorem mapM_ok {f : α → Except ε β} {value : α → β} {xs : List α}
    (ok : ∀ x ∈ xs, f x = .ok (value x)) : xs.mapM f = .ok (xs.map value) := by
  rw [mapM_eq_ok_iff, List.forall₂_map_right_iff, List.forall₂_same]
  exact ok

theorem mapM_map {γ : Type} (f : α → Except ε β) (g : β → γ) (xs : List α) :
    (xs.mapM fun x => (f x).map g) = (xs.mapM f).map (List.map g) := by
  induction xs with
  | nil => rfl
  | cons x xs ih =>
    rw [List.mapM_cons, List.mapM_cons, ih]
    cases f x with
    | error e => rfl
    | ok y => cases xs.mapM f <;> rfl

theorem mapM_eq_error {f : α → Except ε β} {xs : List α} {e : ε} (h : xs.mapM f = .error e) :
    ∃ x ∈ xs, f x = .error e := by
  induction xs with
  | nil => cases h
  | cons x xs ih =>
    rw [List.mapM_cons] at h
    rcases bind_error_iff.1 h with here | ⟨y, -, later⟩
    · exact ⟨x, List.mem_cons_self, here⟩
    · rcases bind_error_iff.1 later with rest | ⟨ys, -, done⟩
      · obtain ⟨z, hz, refused⟩ := ih rest
        exact ⟨z, List.mem_cons_of_mem x hz, refused⟩
      · cases done

/-- Where every value comes from one argument only, a traversal undoes a map. -/
theorem mapM_eq_ok_iff_map {f : α → Except ε β} {back : β → α} {valid : β → Prop}
    (h : ∀ a b, f a = .ok b ↔ a = back b ∧ valid b) {xs : List α} {ys : List β} :
    xs.mapM f = .ok ys ↔ xs = ys.map back ∧ ∀ y ∈ ys, valid y := by
  rw [mapM_eq_ok_iff]
  simp only [h]
  induction ys generalizing xs with
  | nil => simp
  | cons y ys ih =>
    rw [List.forall₂_cons_right_iff, List.map_cons, List.forall_mem_cons]
    constructor
    · rintro ⟨x, rest, ⟨rfl, hy⟩, hrest, rfl⟩
      obtain ⟨rfl, hys⟩ := ih.1 hrest
      exact ⟨rfl, hy, hys⟩
    · rintro ⟨rfl, hy, hys⟩
      exact ⟨back y, ys.map back, ⟨rfl, hy⟩, ih.2 ⟨rfl, hys⟩, rfl⟩

end GraphRelay
