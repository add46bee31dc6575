import GraphRelay.Decimal
import GraphRelay.Single.Binary

/-!
# Reading numbers

Decimal fractions with an optional sign and exponent, and the words for infinity and for no number.
-/
namespace GraphRelay.Single

/-- Digits at the front of a text and what follows them. -/
def digitsAt (cs : List Char) : List Char × List Char :=
  (cs.takeWhile Char.isDigit, cs.dropWhile Char.isDigit)

/-- The value of an exponent part, which may be missing. -/
def exponent? : List Char → Option Int
  | [] => some 0
  | c :: cs =>
    if c = 'e' || c = 'E' then
      match cs with
      | '-' :: cs => (Decimal.digits? 10 cs).map fun n => -(n : Int)
      | '+' :: cs => (Decimal.digits? 10 cs).map Int.ofNat
      | cs => (Decimal.digits? 10 cs).map Int.ofNat
    else none

/-- The magnitude nearest to `digits * 10 ^ exponent`. Numbers far outside the range of single
precision are settled by their size alone. -/
def nearestDecimal (digits : Nat) (exponent : Int) : Nat :=
  let size := (Nat.toDigits 10 digits).length + exponent
  if digits = 0 || size < -60 then 0
  else if 60 < size then infinityBits
  else nearest (digits * Nat.pow 10 exponent.toNat) (Nat.pow 10 (-exponent).toNat)

/-- The magnitude that a decimal fraction spells; at least one digit is needed. -/
def decimal? (cs : List Char) : Option Nat := do
  let (whole, rest) := digitsAt cs
  let (fraction, rest) :=
    match rest with
    | '.' :: rest => digitsAt rest
    | rest => ([], rest)
  let digits ← Decimal.digits? 10 (whole ++ fraction)
  let e ← exponent? rest
  some (nearestDecimal digits (e - fraction.length))

/-- The magnitude that a word spells, in any case. -/
def word? (cs : List Char) : Option Nat :=
  let word := String.ofList (cs.map Char.toLower)
  if word = "inf" || word = "infinity" then some infinityBits
  else if word = "nan" then some (infinityBits + leadingBit / 2)
  else none

def magnitude? (cs : List Char) : Option Nat := (decimal? cs).orElse fun () => word? cs

/-- The bits of the number that a text spells. -/
def parse? (text : String) : Option UInt32 :=
  match text.toList with
  | '-' :: cs => (magnitude? cs).map fun m => .ofNat (signBit + m)
  | '+' :: cs => (magnitude? cs).map .ofNat
  | cs => (magnitude? cs).map .ofNat

end GraphRelay.Single
