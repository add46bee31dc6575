/-!
# Decimal numbers

Reading whole numbers. A plus sign may stand in front; the number has to stay below a bound.
-/
namespace GraphRelay.Decimal

/-- The value of a digit up to base sixteen. -/
def digit? (base : Nat) (c : Char) : Option Nat :=
  let value :=
    if c.isDigit then some (c.toNat - '0'.toNat)
    else if 'a' ≤ c && c ≤ 'f' then some (c.toNat - 'a'.toNat + 10)
    else if 'A' ≤ c && c ≤ 'F' then some (c.toNat - 'A'.toNat + 10)
    else none
  value.filter (· < base)

/-- The number that digits of one base spell. -/
def ofDigits (base : Nat) (digits : List Nat) : Nat :=
  digits.foldl (fun n d => n * base + d) 0

/-- A non-empty run of digits. -/
def digits? (base : Nat) (cs : List Char) : Option Nat :=
  if cs.isEmpty then none else (cs.mapM (digit? base)).map (ofDigits base)

/-- Digits with an optional plus sign, spelling a number below `bound`. -/
def parse? (bound : Nat) (text : String) : Option Nat :=
  let n :=
    match text.toList with
    | '+' :: cs => digits? 10 cs
    | cs => digits? 10 cs
  n.filter (· < bound)

/-- Digits with an optional sign, spelling a number from `-bound` to below `bound`. -/
def parseSigned? (bound : Nat) (text : String) : Option Int :=
  match text.toList with
  | '-' :: cs => ((digits? 10 cs).filter (· ≤ bound)).map fun n => -n
  | _ => (parse? bound text).map Int.ofNat

end GraphRelay.Decimal
