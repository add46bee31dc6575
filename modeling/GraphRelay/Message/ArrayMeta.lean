import GraphRelay.Message.Kind
import GraphRelay.Tensor
import GraphRelay.Wire.Reader

/-!
# Array metadata

The message that announces tensors: their kind and dimensions. On the wire stand the kind's tag and,
if any tensor is announced, how many there are, how many numbers the shape list holds, and that
list: for each tensor its number of dimensions and the dimensions.
-/
namespace GraphRelay

structure ArrayMeta where
  kind : MessageKind
  shapes : List (List Int64)
  deriving DecidableEq, Repr

namespace ArrayMeta

def ofTensors (kind : MessageKind) (tensors : List Tensor) : ArrayMeta :=
  ⟨kind, tensors.map Tensor.shape⟩

/-- The numbers of the shape list. -/
def entries (m : ArrayMeta) : List Int64 :=
  m.shapes.flatMap fun shape => .ofNat shape.length :: shape

def entryCount (m : ArrayMeta) : Nat := m.entries.length

def encodedLength (m : ArrayMeta) : Nat :=
  if m.shapes.isEmpty then 4 else 16 + 8 * m.entryCount

def encode (m : ArrayMeta) : Except Fault Bytes :=
  if m.shapes.isEmpty then .ok (Wire.int32 m.kind.tag)
  else if 0x80000000 ≤ m.shapes.length then .error (.arrayCountOverflow m.shapes.length)
  else .ok (Wire.int32 m.kind.tag ++ Wire.int32 (.ofNat m.shapes.length) ++ Wire.count m.entryCount
    ++ m.entries.flatMap Wire.int64)

open Wire Reader

/-- One shape of a list with `left` numbers left. -/
def readShape (left : Nat) : Reader (List Int64) := do
  if left = 0 then throw .shortShapes
  let dimensions ← Reader.int64
  let available := (← remaining) / 8
  let n := dimensions.toNatClampNeg
  if dimensions < 0 || left ≤ n || available < n then throw (.dimensionCount dimensions.toInt)
  many n Reader.int64

/-- So many shapes of a list with `left` numbers left, and how many are left after them. -/
def readShapes : Nat → Nat → Reader (List (List Int64) × Nat)
  | 0, left => pure ([], left)
  | arrays + 1, left => do
    let shape ← readShape left
    let (shapes, left) ← readShapes arrays (left - (shape.length + 1))
    pure (shape :: shapes, left)

def reader : Reader ArrayMeta := do
  let kind ← MessageKind.ofTag (← Reader.int32)
  if (← remaining) = 0 then return ⟨kind, []⟩
  let arrays ← Reader.int32
  if arrays ≤ 0 then throw (.arrayCount arrays.toInt)
  let declared ← Reader.count
  let (shapes, left) ← readShapes arrays.toNatClampNeg declared
  if left ≠ 0 then throw (.shapeEntries declared arrays.toInt (declared - left))
  finish
  return ⟨kind, shapes⟩

def decode (bs : Bytes) : Except Fault ArrayMeta := Reader.run reader bs

end ArrayMeta

end GraphRelay
