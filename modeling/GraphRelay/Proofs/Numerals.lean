import GraphRelay.Proofs.Decimal
import GraphRelay.Single.Notation
import Mathlib

/-!
# Numbers as they are written

Naturals, integers and single-precision numbers are written with a few characters. A text of such
characters ends where another one follows.
-/
namespace GraphRelay

namespace Text

variable {p : Char → Bool} {xs ys rest rest' : List Char}

/-- A text that does not begin with a character of `p`. -/
def Stops (p : Char → Bool) (rest : List Char) : Prop := ∀ c ∈ rest.head?, p c = false

theorem stops_nil : Stops p [] := by simp [Stops]

theorem stops_cons {c : Char} : Stops p (c :: rest) ↔ p c = false := by simp [Stops]

theorem stops_append {front : List Char} (head : front.head?.map p = some false) :
    Stops p (front ++ rest) := by
  cases front with
  | nil => exact absurd head nofun
  | cons c front => exact stops_cons.2 (Option.some.inj head)

theorem Stops.takeWhile_eq_nil (stops : Stops p rest) : rest.takeWhile p = [] := by
  cases rest with
  | nil => rfl
  | cons c rest => rw [List.takeWhile_cons_of_neg (by simp [stops_cons.1 stops])]

theorem takeWhile_append_stops (run : ∀ c ∈ xs, p c = true) (stops : Stops p rest) :
    (xs ++ rest).takeWhile p = xs := by
  rw [List.takeWhile_append_of_pos run, stops.takeWhile_eq_nil, List.append_nil]

/-- Where a run of characters ends is settled by what follows it. -/
theorem append_eq_append_of_stops (hx : ∀ c ∈ xs, p c = true) (hy : ∀ c ∈ ys, p c = true)
    (stops : Stops p rest) (stops' : Stops p rest') :
    xs ++ rest = ys ++ rest' ↔ xs = ys ∧ rest = rest' := by
  constructor
  · intro same
    have front : xs = ys := by
      rw [← takeWhile_append_stops hx stops, same, takeWhile_append_stops hy stops']
    subst front
    exact ⟨rfl, List.append_cancel_left same⟩
  · rintro ⟨rfl, rfl⟩
    rfl

/-- Where a character occurs last is settled by what follows it. -/
theorem append_cons_inj_of_notMem {c : Char} (hx : c ∉ xs) (hy : c ∉ ys)
    (same : rest ++ c :: xs = rest' ++ c :: ys) : rest = rest' ∧ xs = ys := by
  have run {zs : List Char} (hz : c ∉ zs) : ∀ d ∈ zs.reverse, decide (d ≠ c) = true := by
    rintro d hd
    exact decide_eq_true fun equal => hz (equal ▸ List.mem_reverse.1 hd)
  have stop (zs : List Char) : Stops (fun d => decide (d ≠ c)) (c :: zs) := stops_cons.2 (by simp)
  have reversed := congrArg List.reverse same
  simp only [List.reverse_append, List.reverse_cons, List.append_assoc, List.singleton_append]
    at reversed
  obtain ⟨back, front⟩ :=
    (append_eq_append_of_stops (run hx) (run hy) (stop _) (stop _)).1 reversed
  exact ⟨List.reverse_inj.1 (List.cons.inj front).2, List.reverse_inj.1 back⟩

/-- A text of characters of `p`, at least one. -/
structure Run (p : Char → Bool) (text : String) : Prop where
  nonempty : text.toList ≠ []
  chars : ∀ c ∈ text.toList, p c = true

theorem Run.mono {q : Char → Bool} {s : String} (h : Run p s) (more : ∀ c, p c = true → q c = true) :
    Run q s :=
  ⟨h.nonempty, fun c hc => more c (h.chars c hc)⟩

theorem Run.append_inj {s s' : String} (h : Run p s) (h' : Run p s') (stops : Stops p rest)
    (stops' : Stops p rest') (same : s.toList ++ rest = s'.toList ++ rest') :
    s = s' ∧ rest = rest' := by
  obtain ⟨texts, behind⟩ := (append_eq_append_of_stops h.chars h'.chars stops stops').1 same
  exact ⟨String.toList_inj.1 texts, behind⟩

/-- What stands in front of a label is settled by the text. -/
theorem Run.label_inj {s s' label : String} (h : Run p s) (h' : Run p s')
    (ends : label.toList.head?.map p = some false)
    (same : s.toList ++ (label.toList ++ rest) = s'.toList ++ (label.toList ++ rest')) :
    s = s' ∧ rest = rest' := by
  obtain ⟨texts, behind⟩ := h.append_inj h' (stops_append ends) (stops_append ends) same
  exact ⟨texts, List.append_cancel_left behind⟩

end Text

open Text

/-- The characters that numbers are written with. -/
def isNumeral (c : Char) : Bool := c.isDigit || c = '-' || c = '.' || c = 'e'

/-- A text that can stand for a number. -/
abbrev Numeral (text : String) : Prop := Run isNumeral text

theorem isNumeral_of_isDigit {c : Char} (digit : c.isDigit = true) : isNumeral c = true := by
  simp [isNumeral, digit]

theorem Numeral.toString_nat (n : Nat) : Numeral (toString n) where
  nonempty := Decimal.toList_toString_ne_nil n
  chars _ hc := isNumeral_of_isDigit (Decimal.isDigit_of_mem_toString hc)

theorem Text.Run.minus {text : String} (h : Numeral text) : Numeral ("-" ++ text) where
  nonempty := by simp
  chars := by
    have sign : isNumeral '-' = true := rfl
    simpa [sign] using h.chars

theorem Numeral.toString_int (i : Int) : Numeral (toString i) :=
  match i with
  | .ofNat n => toString_nat n
  | .negSucc n => (toString_nat (n + 1)).minus

section

variable {rest rest' : List Char}

theorem toString_nat_inj {m n : Nat} : toString m = toString n ↔ m = n := Nat.repr_inj

theorem toString_int_inj {i j : Int} : toString i = toString j ↔ i = j := Int.repr_inj

theorem head?_toString_bool (b : Bool) :
    (toString b).toList.head? = some (if b then 't' else 'f') := by
  cases b <;> rfl

theorem toString_bool_append_inj {b c : Bool}
    (same : (toString b).toList ++ rest = (toString c).toList ++ rest') : b = c ∧ rest = rest' := by
  have heads := congrArg List.head? same
  simp only [List.head?_append, head?_toString_bool, Option.some_or, Option.some.injEq] at heads
  obtain rfl : b = c := by cases b <;> cases c <;> simp at heads ⊢
  exact ⟨rfl, List.append_cancel_left same⟩

theorem toString_text (s : String) : toString s = s := rfl

variable {label : String}

theorem toString_nat_label_inj {m n : Nat}
    (ends : label.toList.head?.map isNumeral = some false)
    (same : (toString m).toList ++ (label.toList ++ rest) =
      (toString n).toList ++ (label.toList ++ rest')) : m = n ∧ rest = rest' :=
  ((Numeral.toString_nat m).label_inj (Numeral.toString_nat n) ends same).imp_left
    toString_nat_inj.1

theorem toString_int_label_inj {i j : Int}
    (ends : label.toList.head?.map isNumeral = some false)
    (same : (toString i).toList ++ (label.toList ++ rest) =
      (toString j).toList ++ (label.toList ++ rest')) : i = j ∧ rest = rest' :=
  ((Numeral.toString_int i).label_inj (Numeral.toString_int j) ends same).imp_left
    toString_int_inj.1

end

namespace Single.Layout

variable {digits : List Char}

theorem isNumeral_of_mem_digitsOf {n : Nat} {c : Char} (hc : c ∈ digitsOf n) :
    isNumeral c = true :=
  (Numeral.toString_nat n).chars c hc

theorem numeral_positional (numeral : ∀ c ∈ digits, isNumeral c = true) (point : Int) :
    Numeral (positional digits point) := by
  have zero : isNumeral '0' = true := rfl
  have dot : isNumeral '.' = true := rfl
  have filled : ∀ c ∈ List.replicate (1 - point).toNat '0' ++ digits ++
      List.replicate (point - digits.length).toNat '0', isNumeral c = true := by
    intro c hc
    simp only [List.mem_append, List.mem_replicate] at hc
    obtain (⟨-, rfl⟩ | hc) | ⟨-, rfl⟩ := hc
    · exact zero
    · exact numeral c hc
    · exact zero
  constructor
  · simp [positional]
  · intro c hc
    simp only [positional, String.toList_ofList, List.mem_append, List.mem_cons] at hc
    obtain whole | rfl | rest := hc
    · exact filled c (by simpa using List.mem_of_mem_take whole)
    · exact dot
    · split at rest
      · obtain rfl := List.mem_singleton.1 rest
        exact zero
      · exact filled c (by simpa using List.mem_of_mem_drop rest)

theorem numeral_exponential (numeral : ∀ c ∈ digits, isNumeral c = true) (exponent : Int) :
    Numeral (exponential digits exponent) := by
  have dot : isNumeral '.' = true := rfl
  have e : isNumeral 'e' = true := rfl
  constructor
  · simp [exponential]
  · intro c hc
    simp only [exponential, String.toList_append, String.toList_ofList, List.mem_append] at hc
    obtain ((first | fraction) | mark) | power := hc
    · exact numeral c (List.mem_of_mem_take first)
    · split at fraction
      · simp at fraction
      · obtain rfl | rest := List.mem_cons.1 fraction
        · exact dot
        · exact numeral c (List.mem_of_mem_drop rest)
    · obtain rfl : c = 'e' := by simpa using mark
      exact e
    · exact (Numeral.toString_int exponent).chars c power

theorem numeral_magnitude (l : Layout) (x : Binary) : Numeral (l.magnitude x) := by
  rw [magnitude]
  split
  · exact ⟨by simp, by simp [isNumeral]⟩
  · dsimp only
    split
    · exact numeral_positional (fun _ => isNumeral_of_mem_digitsOf) _
    · exact numeral_exponential (fun _ => isNumeral_of_mem_digitsOf) _

theorem numeral_signed (l : Layout) (negative : Bool) (x : Binary) :
    Numeral (l.signed negative x) := by
  rw [signed]
  split
  · exact (l.numeral_magnitude x).minus
  · rw [String.empty_append]
    exact l.numeral_magnitude x

end Single.Layout

end GraphRelay
