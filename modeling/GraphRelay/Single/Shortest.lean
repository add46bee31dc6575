import GraphRelay.Single.Binary

/-!
# The shortest decimal

The decimal with the fewest digits among those that read back as a given number, and of several with
as few digits the nearest one.
-/
namespace GraphRelay.Single

/-- `digits * 10 ^ exponent`. -/
structure Scientific where
  digits : Nat
  exponent : Int
  deriving DecidableEq, Repr

/-- Which of two decimals that are equally near is taken. -/
inductive Tie where
  | even
  | upper
  deriving DecidableEq, Repr

/-- Compares `a * 10 ^ i` with `n * 2 ^ j`. -/
def compareScaled (a : Nat) (i : Int) (n : Nat) (j : Int) : Ordering :=
  compare ((a * Nat.pow 10 i.toNat) <<< (-j).toNat) ((n * Nat.pow 10 (-i).toNat) <<< j.toNat)

namespace Binary

/-- Whether a decimal lies among the numbers that round to `x`; the two that lie half-way to a
neighbour do if the mantissa is even. -/
def readsBack (x : Binary) (d : Scientific) : Bool :=
  let low := if x.narrowBelow then 4 * x.mantissa - 1 else 4 * x.mantissa - 2
  let fromLow := compareScaled d.digits d.exponent low (x.scale - 2)
  let fromHigh := compareScaled d.digits d.exponent (4 * x.mantissa + 2) (x.scale - 2)
  let closed := x.mantissa % 2 = 0
  (fromLow = .gt || (closed && fromLow = .eq)) && (fromHigh = .lt || (closed && fromHigh = .eq))

/-- The whole number of steps of `10 ^ exponent` below `x`. -/
def stepsBelow (x : Binary) (exponent : Int) : Nat :=
  ((x.mantissa * Nat.pow 10 (-exponent).toNat) <<< x.scale.toNat)
    / (Nat.pow 10 exponent.toNat <<< (-x.scale).toNat)

/-- The least `k` with `x < 10 ^ k`, from a range that no number leaves. -/
def decimalScale (x : Binary) : Int :=
  let exceeds (i : Nat) : Bool := compareScaled 1 ((i : Int) - 46) x.mantissa x.scale = .gt
  (((List.range 86).find? exceeds).getD 86 : Int) - 46

/-- The decimal with `n` digits that reads back as `x`, if there is one. -/
def withDigits? (x : Binary) (tie : Tie) (n : Nat) : Option Scientific :=
  let exponent := x.decimalScale - n
  let below : Scientific := ⟨x.stepsBelow exponent, exponent⟩
  let above : Scientific := ⟨below.digits + 1, exponent⟩
  match x.readsBack below, x.readsBack above with
  | false, false => none
  | true, false => some below
  | false, true => some above
  | true, true =>
    match compareScaled (2 * below.digits + 1) exponent (2 * x.mantissa) x.scale with
    | .gt => some below
    | .lt => some above
    | .eq => if tie = .even && below.digits % 2 = 0 then some below else some above

/-- Nine digits tell all single-precision numbers apart. -/
def maxDigits : Nat := 9

end Binary

/-- Moves the zeros at the end of the digits into the exponent. -/
def Scientific.strip : Nat → Scientific → Scientific
  | 0, d => d
  | n + 1, d => if d.digits % 10 = 0 then strip n ⟨d.digits / 10, d.exponent + 1⟩ else d

/-- The shortest decimal of a number other than zero. -/
def Binary.shortest (x : Binary) (tie : Tie) : Scientific :=
  let found := ((List.range maxDigits).map (· + 1)).findSome? (x.withDigits? tie)
  (found.getD ⟨x.stepsBelow (x.decimalScale - maxDigits), x.decimalScale - maxDigits⟩).strip
    (maxDigits + 1)

end GraphRelay.Single
