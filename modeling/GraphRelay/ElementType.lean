/-!
# Element types

What one element of a tensor is: the family its code names, its width in bits and its lane count.
-/
namespace GraphRelay

structure ElementType where
  code : UInt8
  bits : UInt8
  lanes : UInt16
  deriving DecidableEq, Repr

namespace ElementType

/-- Signed 64-bit integers, the type of id arrays. -/
def int64 : ElementType := ⟨0, 64, 1⟩

/-- Single-precision numbers, the type of parameter values. -/
def float32 : ElementType := ⟨2, 32, 1⟩

/-- Bytes of one element, a started byte counted whole. -/
def byteSize (t : ElementType) : Nat := (t.bits.toNat * t.lanes.toNat + 7) / 8

/-- The form in which messages quote an element type. -/
def quote (t : ElementType) : String :=
  "DataType \x7b code: " ++ toString t.code.toNat ++ ", bits: " ++ toString t.bits.toNat
    ++ ", lanes: " ++ toString t.lanes.toNat ++ " \x7d"

end ElementType

end GraphRelay
