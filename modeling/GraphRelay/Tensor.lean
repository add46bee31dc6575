import GraphRelay.Fault
import GraphRelay.Wire.Word

/-!
# Tensors

A buffer with the type of its elements and its dimensions. `Tensor.ofBytes` takes a buffer whose
length is what type and dimensions call for; the other constructors lay out their values themselves.
-/
namespace GraphRelay

/-- Sizes below this bound can be addressed. -/
def addressable : Nat := UInt64.size

/-- The number of elements, multiplied up from the first dimension; `n` counts those before. -/
def countElements (n : Nat) : List Int64 → Except ShapeFault Nat
  | [] => .ok n
  | d :: ds =>
    if d < 0 then .error (.negativeDimension d.toInt)
    else if addressable ≤ n * d.toNatClampNeg then .error .sizeOverflow
    else countElements (n * d.toNatClampNeg) ds

/-- The bytes that a tensor of this type and these dimensions takes. -/
def sizeInBytes (type : ElementType) (shape : List Int64) : Except ShapeFault Nat :=
  match countElements 1 shape with
  | .error f => .error f
  | .ok n =>
    if addressable ≤ n * type.byteSize then .error .sizeOverflow else .ok (n * type.byteSize)

structure Tensor where
  type : ElementType
  shape : List Int64
  data : Bytes
  deriving DecidableEq, Repr

namespace Tensor

/-- Takes a buffer if it is as long as its type and dimensions ask. -/
def shaped (type : ElementType) (shape : List Int64) (data : Bytes) : Except ShapeFault Tensor :=
  match sizeInBytes type shape with
  | .error f => .error f
  | .ok n =>
    if data.length = n then .ok ⟨type, shape, data⟩
    else .error (.byteCount (shape.map Int64.toInt) n data.length)

def ofBytes (type : ElementType) (shape : List Int64) (data : Bytes) : Except Fault Tensor :=
  (shaped type shape data).mapError .shape

/-- A tensor whose buffer came from another peer. -/
def received (type : ElementType) (shape : List Int64) (data : Bytes) : Except Fault Tensor :=
  (shaped type shape data).mapError .receivedShape

/-- A vector of ids whose buffer came from another peer. -/
def receivedIds (shape : List Int64) (data : Bytes) : Except Fault Tensor :=
  if shape.length = 1 then received .int64 shape data
  else .error (.notVector (shape.map Int64.toInt))

def ofInt64s (values : List Int64) : Tensor :=
  ⟨.int64, [.ofNat values.length], values.flatMap Wire.int64⟩

/-- Ids below this bound are 64-bit integers. -/
def idLimit : Nat := 0x8000000000000000

/-- A vector of ids, each of which must be a non-negative 64-bit integer. -/
def ofIds (ids : List Nat) : Except Fault Tensor :=
  match ids.find? (idLimit ≤ ·) with
  | some id => .error (.wideId id)
  | none => .ok (ofInt64s (ids.map .ofNat))

/-- Single-precision numbers by their bit patterns. -/
def ofFloatBits (shape : List Int64) (bits : List UInt32) : Except Fault Tensor :=
  ofBytes .float32 shape (bits.flatMap fun b => Wire.word 4 b.toNat)

def rank (t : Tensor) : Nat := t.shape.length

def byteLength (t : Tensor) : Nat := t.data.length

/-- Elements without any size count as one byte each. -/
def elementCount (t : Tensor) : Nat := t.data.length / max t.type.byteSize 1

def toInt64s (t : Tensor) : Except Fault (List Int64) :=
  if t.type = .int64 then .ok ((Wire.words 8 t.data).map Wire.toInt64)
  else .error (.elementType t.type .int64)

def toIds (t : Tensor) : Except Fault (List Nat) :=
  match t.toInt64s with
  | .error f => .error f
  | .ok values =>
    match values.find? (· < 0) with
    | some v => .error (.negativeId v.toInt)
    | none => .ok (values.map Int64.toNatClampNeg)

def toFloatBits (t : Tensor) : Except Fault (List UInt32) :=
  if t.type = .float32 then .ok ((Wire.words 4 t.data).map fun w => .ofNat (Wire.unword w))
  else .error (.elementType t.type .float32)

/-- Whether the tensor is a vector of 64-bit integers. -/
def isIdVector (t : Tensor) : Bool := t.type = .int64 && t.rank = 1

end Tensor

end GraphRelay
