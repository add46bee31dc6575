import GraphRelay.Decimal

/-!
# Network addresses

Addresses of both versions of the internet protocol: their literals as users write them and the
short form in which they are shown.
-/
namespace GraphRelay

inductive Address where
  | v4 (a b c d : UInt8)
  /-- Eight groups. -/
  | v6 (groups : List UInt16)
  deriving DecidableEq, Repr

namespace Address

/-- A number of at most `maxDigits` digits at the front of a text, below `bound`. -/
def number? (base maxDigits bound : Nat) (leadingZero : Bool) (cs : List Char) :
    Option (Nat × List Char) :=
  let isDigit (c : Char) : Bool := (Decimal.digit? base c).isSome
  let digits := cs.takeWhile isDigit
  if maxDigits < digits.length then none
  else if !leadingZero && digits.head? = some '0' && 1 < digits.length then none
  else ((Decimal.digits? base digits).filter (· < bound)).map fun n => (n, cs.dropWhile isDigit)

def expect? (c : Char) : List Char → Option (List Char)
  | d :: rest => if c = d then some rest else none
  | [] => none

/-- Four numbers with points between them at the front of a text. -/
def quad? (cs : List Char) : Option ((UInt8 × UInt8 × UInt8 × UInt8) × List Char) := do
  let octet := number? 10 3 256 false
  let (a, cs) ← octet cs
  let (b, cs) ← expect? '.' cs >>= octet
  let (c, cs) ← expect? '.' cs >>= octet
  let (d, cs) ← expect? '.' cs >>= octet
  pure ((.ofNat a, .ofNat b, .ofNat c, .ofNat d), cs)

/-- The group that two octets form. -/
def join (high low : UInt8) : UInt16 := .ofNat (high.toNat * 256 + low.toNat)

/-- At most so many groups with colons between them, whether the last two were written as a quad,
and the rest of the text. -/
def groups : Nat → Bool → List Char → List UInt16 × Bool × List Char
  | 0, _, cs => ([], false, cs)
  | slots + 1, first, cs =>
    match if first then some cs else expect? ':' cs with
    | none => ([], false, cs)
    | some body =>
      match if 0 < slots then quad? body else none with
      | some ((a, b, c, d), rest) => ([join a b, join c d], true, rest)
      | none =>
        match number? 16 4 65536 true body with
        | none => ([], false, cs)
        | some (g, rest) =>
          let (more, quad, rest) := groups slots false rest
          (.ofNat g :: more, quad, rest)

/-- Eight groups, where two colons may stand for one or more zeros. -/
def parseV6? (cs : List Char) : Option (List UInt16) := do
  let (front, quad, rest) := groups 8 true cs
  if front.length = 8 then
    if rest.isEmpty then some front else none
  else if quad then none
  else
    let rest ← expect? ':' rest >>= expect? ':'
    let (back, _, rest) := groups (7 - front.length) true rest
    if rest.isEmpty then
      some (front ++ List.replicate (8 - front.length - back.length) 0 ++ back)
    else none

/-- A literal of either version. -/
def parse? (text : String) : Option Address :=
  let cs := text.toList
  match quad? cs with
  | some ((a, b, c, d), []) => some (.v4 a b c d)
  | _ => (parseV6? cs).map .v6

/-- A number that says its base: 16 behind `0x`, 8 behind a zero, 10 otherwise. -/
def basedNumber? : List Char → Option Nat
  | '0' :: c :: digits =>
    if c = 'x' || c = 'X' then Decimal.digits? 16 digits else Decimal.digits? 8 (c :: digits)
  | digits => Decimal.digits? 10 digits

/-- The octet of `n` that stands before so many others. -/
def octetAt (n behind : Nat) : UInt8 := .ofNat (n >>> (8 * behind))

/-- An address of version 4 in fewer than four numbers or in other bases; the last number fills all
octets that are left. -/
def parseShort? (text : String) : Option Address := do
  let numbers ← (text.splitOn ".").mapM fun part => basedNumber? part.toList
  let last ← numbers.getLast?
  let octets := numbers.dropLast
  let left := 4 - octets.length
  if 3 < octets.length || octets.any (255 < ·) || 1 <<< (8 * left) ≤ last then none
  match octets.map UInt8.ofNat ++ (List.range left).reverse.map (octetAt last) with
  | [a, b, c, d] => some (.v4 a b c d)
  | _ => none

/-- Where the longest run of zeros in `groups` starts and how long it is; the first of several. -/
def longestZeros : Nat → List UInt16 → Nat × Nat
  | _, [] => (0, 0)
  | position, g :: rest =>
    let here := ((g :: rest).takeWhile (· = 0)).length
    let (start, length) := longestZeros (position + 1) rest
    if length ≤ here then (position, here) else (start, length)

def hexText (g : UInt16) : String := String.ofList (Nat.toDigits 16 g.toNat)

def groupsText (groups : List UInt16) : String := ":".intercalate (groups.map hexText)

def quadText (a b c d : UInt8) : String :=
  ".".intercalate ([a, b, c, d].map fun o => toString o.toNat)

/-- The short form: a run of several zeros is left out, and an address of version 4 inside one of
version 6 is written as a quad. -/
def text : Address → String
  | v4 a b c d => quadText a b c d
  | v6 [0, 0, 0, 0, 0, 0xffff, g, h] =>
    "::ffff:" ++ quadText (.ofNat (g.toNat / 256)) (.ofNat g.toNat) (.ofNat (h.toNat / 256))
      (.ofNat h.toNat)
  | v6 groups =>
    let (start, length) := longestZeros 0 groups
    if 1 < length then
      groupsText (groups.take start) ++ "::" ++ groupsText (groups.drop (start + length))
    else groupsText groups

/-- The address with a port, as sockets are named. -/
def withPort (a : Address) (port : UInt16) : String :=
  match a with
  | v4 .. => a.text ++ ":" ++ toString port.toNat
  | v6 .. => "[" ++ a.text ++ "]:" ++ toString port.toNat

end Address

end GraphRelay
