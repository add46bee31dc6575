import GraphRelay.Decimal
import Mathlib.Data.List.Basic

/-!
# Decimal numbers and their digits

Exactly the non-empty runs of digits with an optional plus sign are read, as the number that the
digits spell. What is written for a number is read as this number.
-/
namespace GraphRelay.Decimal

variable {cs : List Char} {bound n : Nat}

/-- Digits, perhaps behind a plus sign, that spell `n`. -/
def Spells (cs : List Char) (n : Nat) : Prop :=
  ∃ digits, (cs = digits ∨ cs = '+' :: digits) ∧ digits ≠ [] ∧ (∀ c ∈ digits, c.isDigit = true) ∧
    Nat.ofDigitChars 10 digits 0 = n

theorem digit?_ten (c : Char) :
    digit? 10 c = if c.isDigit then some (c.toNat - '0'.toNat) else none := by
  rw [digit?]
  split
  · next digit =>
    have bounds := Char.isDigit_iff_toNat.1 digit
    have small : c.toNat - '0'.toNat < 10 := by
      have top : '9'.toNat = '0'.toNat + 9 := rfl
      omega
    simpa using small
  · split
    · simp
    · split <;> simp

theorem mapM_digit?_ten (cs : List Char) : cs.mapM (digit? 10) =
    if cs.all Char.isDigit then some (cs.map fun c => c.toNat - '0'.toNat) else none := by
  induction cs with
  | nil => rfl
  | cons c cs ih =>
    rw [List.mapM_cons, digit?_ten, ih]
    by_cases first : c.isDigit = true <;> by_cases rest : cs.all Char.isDigit = true <;>
      simp [first, rest]

theorem ofDigits_ten (cs : List Char) :
    ofDigits 10 (cs.map fun c => c.toNat - '0'.toNat) = Nat.ofDigitChars 10 cs 0 := by
  rw [ofDigits, List.foldl_map, Nat.ofDigitChars_eq_foldl]
  simp only [Nat.mul_comm]

theorem digits?_eq_some_iff : digits? 10 cs = some n ↔
    cs ≠ [] ∧ (∀ c ∈ cs, c.isDigit = true) ∧ Nat.ofDigitChars 10 cs 0 = n := by
  rw [digits?, mapM_digit?_ten, ← List.all_eq_true]
  by_cases empty : cs = []
  · simp [empty]
  by_cases digits : cs.all Char.isDigit = true
  · rw [if_neg (by simpa using empty), if_pos digits, Option.map_some, ofDigits_ten,
      Option.some.injEq]
    exact ⟨fun value => ⟨empty, digits, value⟩, fun h => h.2.2⟩
  · rw [if_neg (by simpa using empty), if_neg digits]
    exact iff_of_false nofun fun h => digits h.2.1

theorem parse?_eq_some_iff {text : String} :
    parse? bound text = some n ↔ Spells text.toList n ∧ n < bound := by
  have plus : '+'.isDigit = false := rfl
  rw [parse?, Option.filter_eq_some_iff, decide_eq_true_iff]
  refine and_congr_left fun _ => ?_
  split
  · next cs signed =>
    rw [signed, digits?_eq_some_iff]
    constructor
    · exact fun spelt => ⟨cs, .inr rfl, spelt⟩
    · rintro ⟨digits, same | same, nonempty, digit, value⟩
      · have sign := digit '+' (same ▸ List.mem_cons_self)
        simp [plus] at sign
      · obtain rfl := (List.cons.inj same).2
        exact ⟨nonempty, digit, value⟩
  · next unsigned =>
    rw [digits?_eq_some_iff]
    constructor
    · exact fun spelt => ⟨_, .inl rfl, spelt⟩
    · rintro ⟨digits, rfl | same, spelt⟩
      · exact spelt
      · exact absurd same (unsigned digits)

theorem isDigit_of_mem_toString {c : Char} (hc : c ∈ (toString n).toList) : c.isDigit = true := by
  rw [Nat.toString_eq_repr, Nat.toList_repr] at hc
  exact Nat.isDigit_of_mem_toDigits (by decide) (by decide) hc

theorem toList_toString_ne_nil (n : Nat) : (toString n).toList ≠ [] := by
  rw [Nat.toString_eq_repr, Nat.toList_repr]
  exact Nat.toDigits_ne_nil

theorem spells_toString (n : Nat) : Spells (toString n).toList n := by
  refine ⟨_, .inl rfl, toList_toString_ne_nil n, fun c => isDigit_of_mem_toString, ?_⟩
  rw [Nat.toString_eq_repr, Nat.toList_repr, Nat.ofDigitChars_ten_toDigits]

theorem parse?_toString (small : n < bound) : parse? bound (toString n) = some n :=
  parse?_eq_some_iff.2 ⟨spells_toString n, small⟩

end GraphRelay.Decimal
