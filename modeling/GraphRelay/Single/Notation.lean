import GraphRelay.Single.Shortest

/-!
# Writing numbers

How a number is laid out once its digits are known: positionally within a range of exponents, else
with one digit before the point and the exponent behind.
-/
namespace GraphRelay.Single

structure Layout where
  /-- The exponent of the leading digit from which numbers are written positionally. -/
  positionalFrom : Int
  /-- The exponent of the leading digit below which numbers are written positionally. -/
  positionalBelow : Int
  tie : Tie
  deriving DecidableEq, Repr

namespace Layout

def digitsOf (n : Nat) : List Char := (toString n).toList

/-- Digits with the point after `point` of them; zeros fill up on either side. -/
def positional (digits : List Char) (point : Int) : String :=
  let zeros (n : Int) : List Char := List.replicate n.toNat '0'
  let digits := zeros (1 - point) ++ digits ++ zeros (point - digits.length)
  let whole := digits.take (max point 1).toNat
  let rest := digits.drop (max point 1).toNat
  String.ofList (whole ++ '.' :: if rest.isEmpty then ['0'] else rest)

def exponential (digits : List Char) (exponent : Int) : String :=
  let rest := digits.drop 1
  let fraction := if rest.isEmpty then [] else '.' :: rest
  String.ofList (digits.take 1 ++ fraction) ++ "e" ++ toString exponent

def magnitude (l : Layout) (x : Binary) : String :=
  if x.mantissa = 0 then "0.0"
  else
    let d := x.shortest l.tie
    let digits := digitsOf d.digits
    let leading := d.exponent + digits.length - 1
    if l.positionalFrom ≤ leading && leading < l.positionalBelow then
      positional digits (leading + 1)
    else exponential digits leading

def signed (l : Layout) (negative : Bool) (x : Binary) : String :=
  (if negative then "-" else "") ++ l.magnitude x

end Layout

end GraphRelay.Single
