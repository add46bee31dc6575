import Mathlib.Data.List.Induction
import Mathlib.Data.List.Nodup
import Std.Data.HashMap.Lemmas

/-!
# First occurrences

The members of a list in the order in which they turn up, the hash map that numbers them in that order
while the list is gone through, and lists in which no member may turn up twice.
-/
namespace GraphRelay

section Members

variable {α : Type} [BEq α] [LawfulBEq α] {found xs : List α} {x : α}

/-- `found` has the members of `xs`, each once, in the order in which they first turn up. -/
structure Discovers {α : Type} [BEq α] (found xs : List α) : Prop where
  mem_iff : ∀ v, v ∈ found ↔ v ∈ xs
  ordered : found.Pairwise (xs.idxOf · < xs.idxOf ·)

omit [LawfulBEq α] in
theorem Discovers.nodup (h : Discovers found xs) : found.Nodup :=
  h.ordered.imp fun lt => fun same => absurd lt (same ▸ Nat.lt_irrefl _)

/-- What holds of the members from left to right holds of them where they turn up first. -/
theorem Discovers.pairwise {R : α → α → Prop} (h : Discovers found xs) (hR : xs.Pairwise R) :
    found.Pairwise R := by
  rw [List.pairwise_iff_getElem] at hR
  refine h.ordered.imp_of_mem fun {u v} hu hv lt => ?_
  have hu' := List.idxOf_lt_length_of_mem ((h.mem_iff u).1 hu)
  have hv' := List.idxOf_lt_length_of_mem ((h.mem_iff v).1 hv)
  have between := hR _ _ hu' hv' lt
  rwa [List.getElem_idxOf hu', List.getElem_idxOf hv'] at between

theorem Discovers.ordered_concat (h : Discovers found xs) (x : α) :
    found.Pairwise ((xs ++ [x]).idxOf · < (xs ++ [x]).idxOf ·) :=
  h.ordered.imp_of_mem fun hu hv lt => by
    rwa [List.idxOf_append_of_mem ((h.mem_iff _).1 hu),
      List.idxOf_append_of_mem ((h.mem_iff _).1 hv)]

theorem Discovers.old (h : Discovers found xs) (hx : x ∈ xs) : Discovers found (xs ++ [x]) where
  mem_iff v := by
    rw [h.mem_iff, List.mem_append, List.mem_singleton]
    exact ⟨.inl, fun hv => hv.elim id fun same => same ▸ hx⟩
  ordered := h.ordered_concat x

theorem Discovers.new (h : Discovers found xs) (hx : x ∉ xs) :
    Discovers (found ++ [x]) (xs ++ [x]) where
  mem_iff v := by rw [List.mem_append, List.mem_append, h.mem_iff]
  ordered := by
    rw [List.pairwise_append]
    refine ⟨h.ordered_concat x, List.pairwise_singleton .., fun u hu v hv => ?_⟩
    obtain rfl := List.mem_singleton.1 hv
    have before := List.idxOf_lt_length_of_mem ((h.mem_iff u).1 hu)
    rw [List.idxOf_append_of_mem ((h.mem_iff u).1 hu), List.idxOf_append_of_notMem hx]
    omega

theorem eraseDups_concat (xs : List α) (x : α) :
    (xs ++ [x]).eraseDups = if x ∈ xs then xs.eraseDups else xs.eraseDups ++ [x] := by
  rw [List.eraseDups_append]
  split
  next old => simp [List.removeAll, old]
  next new => simp [List.removeAll, new, List.eraseDups_cons]

theorem discovers_eraseDups (xs : List α) : Discovers xs.eraseDups xs := by
  induction xs using List.reverseRecOn with
  | nil => exact ⟨by simp, by simp⟩
  | append_singleton xs x ih =>
    rw [eraseDups_concat]
    split
    next old => exact ih.old old
    next new => exact ih.new new

theorem nodup_eraseDups (xs : List α) : xs.eraseDups.Nodup := (discovers_eraseDups xs).nodup

/-- There is one such order only. -/
theorem Discovers.eq_eraseDups (h : Discovers found xs) : found = xs.eraseDups := by
  have other := discovers_eraseDups xs
  have same : found.Perm xs.eraseDups :=
    (List.perm_ext_iff_of_nodup h.nodup other.nodup).2 fun v => by rw [h.mem_iff, other.mem_iff]
  exact same.eq_of_pairwise (fun _ _ _ _ lt gt => absurd lt (Nat.lt_asymm gt)) h.ordered
    other.ordered

theorem discovers_self (nodup : xs.Nodup) : Discovers xs xs where
  mem_iff _ := .rfl
  ordered := by
    rw [List.pairwise_iff_getElem]
    intro i j hi hj lt
    rwa [nodup.idxOf_getElem, nodup.idxOf_getElem]

theorem eraseDups_of_nodup (nodup : xs.Nodup) : xs.eraseDups = xs :=
  (discovers_self nodup).eq_eraseDups.symm

/-- What follows leaves the place of a first occurrence as it is. -/
theorem idxOf_eraseDups_append (hx : x ∈ xs) (ys : List α) :
    (xs ++ ys).eraseDups.idxOf x = xs.eraseDups.idxOf x := by
  rw [List.eraseDups_append, List.idxOf_append_of_mem (List.mem_eraseDups.2 hx)]

theorem count_eraseDups (xs : List α) (x : α) : xs.eraseDups.count x = min 1 (xs.count x) := by
  by_cases hx : x ∈ xs
  · have one := List.count_eq_one_of_mem (nodup_eraseDups xs) (List.mem_eraseDups.2 hx)
    have some := List.count_pos_iff.2 hx
    omega
  · have none := List.count_eq_zero.2 hx
    rw [none, List.count_eq_zero.2 (fun h => hx (List.mem_eraseDups.1 h))]
    rfl

end Members

/-- The map leads from each member of a list to its place. -/
structure Indexes (index : Std.HashMap Nat Nat) (order : List Nat) : Prop where
  getElem? : ∀ v, index[v]? = order.idxOf? v
  size : index.size = order.length

theorem indexes_empty : Indexes ∅ [] := ⟨fun v => by simp, rfl⟩

variable {index : Std.HashMap Nat Nat} {order : List Nat} {v : Nat}

theorem Indexes.mem_iff (h : Indexes index order) : v ∈ index ↔ v ∈ order := by
  rw [← Std.HashMap.contains_iff_mem, Std.HashMap.contains_eq_isSome_getElem?, h.getElem?,
    Option.isSome_iff_ne_none, ne_eq, List.idxOf?_eq_none_iff, not_not]

theorem Indexes.getElem?_of_mem (h : Indexes index order) (hv : v ∈ order) :
    index[v]? = some (order.idxOf v) := by
  rw [h.getElem?, List.idxOf_eq_getD_idxOf?]
  cases place : order.idxOf? v with
  | none => exact absurd hv (List.idxOf?_eq_none_iff.1 place)
  | some i => rfl

theorem Indexes.insert (h : Indexes index order) (new : v ∉ order) :
    Indexes (index.insert v order.length) (order ++ [v]) where
  getElem? u := by
    rw [Std.HashMap.getElem?_insert, h.getElem?]
    unfold List.idxOf?
    rw [List.findIdx?_append]
    by_cases same : v = u
    · subst same
      have absent : List.findIdx? (· == v) order = none := List.idxOf?_eq_none_iff.2 new
      simp [absent]
    · simp [same]
  size := by
    rw [Std.HashMap.size_insert, if_neg (h.mem_iff.not.2 new), h.size, List.length_append]
    rfl

/-- The first member that is no good, or is there already, decides what a list is refused for. -/
inductive RefusedFor {ε : Type} (good : Nat → Prop) (bad again : Nat → ε) (xs : List Nat) :
    ε → Prop where
  | bad {before after : List Nat} {x : Nat} (split : xs = before ++ x :: after)
      (fine : ∀ y ∈ before, good y) (nodup : before.Nodup) (hx : ¬good x) :
      RefusedFor good bad again xs (bad x)
  | again {before after : List Nat} {x : Nat} (split : xs = before ++ x :: after)
      (fine : ∀ y ∈ before, good y) (nodup : before.Nodup) (hx : x ∈ before) :
      RefusedFor good bad again xs (again x)

theorem RefusedFor.not_all {xs : List Nat} {ε : Type} {good : Nat → Prop} {bad again : Nat → ε} {e : ε}
    (h : RefusedFor good bad again xs e) : ¬((∀ x ∈ xs, good x) ∧ xs.Nodup) := by
  rintro ⟨fine, nodup⟩
  cases h with
  | bad split _ _ hx => exact hx (fine _ (by simp [split]))
  | again split _ _ hx =>
    rw [split] at nodup
    exact (List.nodup_append.1 nodup).2.2 _ hx _ List.mem_cons_self rfl

theorem nodup_concat {xs : List Nat} {x : Nat} (nodup : xs.Nodup) (new : x ∉ xs) : (xs ++ [x]).Nodup :=
  List.nodup_append_comm.1 (List.nodup_cons.2 ⟨new, nodup⟩)

end GraphRelay
