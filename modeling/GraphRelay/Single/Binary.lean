/-!
# Single precision

What the 32 bits of a single-precision number stand for, and the number nearest to a fraction.
-/
namespace GraphRelay.Single

/-- A finite magnitude, `mantissa * 2 ^ scale`. -/
structure Binary where
  mantissa : Nat
  scale : Int
  /-- Whether the next smaller number is only half as far away as the next larger one. -/
  narrowBelow : Bool
  deriving DecidableEq, Repr

inductive Number where
  | finite (negative : Bool) (magnitude : Binary)
  | infinite (negative : Bool)
  | notANumber
  deriving DecidableEq, Repr

/-- The bit of a mantissa that is not stored. -/
def leadingBit : Nat := 0x800000

def signBit : Nat := 0x80000000

def fraction (bits : UInt32) : Nat := bits.toNat % leadingBit

def exponentField (bits : UInt32) : Nat := bits.toNat / leadingBit % 256

def isNegative (bits : UInt32) : Bool := signBit ≤ bits.toNat

def ofBits (bits : UInt32) : Number :=
  let e := exponentField bits
  let f := fraction bits
  if e = 255 then if f = 0 then .infinite (isNegative bits) else .notANumber
  else if e = 0 then .finite (isNegative bits) ⟨f, -149, false⟩
  else .finite (isNegative bits) ⟨leadingBit + f, (e : Int) - 150, f = 0 && 1 < e⟩

/-- The quotient to the nearest whole number, a half to the even one. -/
def roundQuotient (num den : Nat) : Nat :=
  let q := num / den
  let twice := 2 * (num % den)
  if den < twice || (twice = den && q % 2 = 1) then q + 1 else q

/-- The bits of positive infinity. -/
def infinityBits : Nat := 255 * leadingBit

/-- The bits of the magnitude nearest to `num / den`, where `scale` is that of its last bit. -/
def roundAt (num den : Nat) (scale : Int) : Nat :=
  let m := roundQuotient (num <<< (-scale).toNat) (den <<< scale.toNat)
  if m < leadingBit then m
  else min infinityBits ((scale + 150).toNat * leadingBit + (m - leadingBit))

/-- The binary exponent of `num / den`: the greatest `e` with `2 ^ e ≤ num / den`. -/
def binaryExponent (num den : Nat) : Int :=
  let e := (Nat.log2 num : Int) - Nat.log2 den
  if den <<< e.toNat ≤ num <<< (-e).toNat then e else e - 1

/-- The bits of the magnitude nearest to a fraction; half-way the even mantissa wins. -/
def nearest (num den : Nat) : Nat :=
  if num = 0 then 0 else roundAt num den (max (binaryExponent num den - 23) (-149))

end GraphRelay.Single
