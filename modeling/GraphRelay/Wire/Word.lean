/-!
# Words on the wire

Integers travel as a fixed number of bytes, the lowest first. Signed integers travel as the word of
the same width that is congruent to them.
-/
namespace GraphRelay

abbrev Bytes := List UInt8

namespace Wire

/-- The `width` lowest bytes of `n`. -/
def word : Nat → Nat → Bytes
  | 0, _ => []
  | width + 1, n => UInt8.ofNat n :: word width (n / 256)

/-- The number that a word stands for. -/
def unword : Bytes → Nat
  | [] => 0
  | b :: bs => b.toNat + 256 * unword bs

@[simp] theorem length_word (width n : Nat) : (word width n).length = width := by
  induction width generalizing n with
  | zero => rfl
  | succ width ih => simp [word, ih]

def int32 (v : Int32) : Bytes := word 4 v.toUInt32.toNat

def int64 (v : Int64) : Bytes := word 8 v.toUInt64.toNat

/-- A length or count. -/
def count (n : Nat) : Bytes := word 8 n

def toInt32 (bs : Bytes) : Int32 := (UInt32.ofNat (unword bs)).toInt32

def toInt64 (bs : Bytes) : Int64 := (UInt64.ofNat (unword bs)).toInt64

/-- The first `n` pieces of `width` bytes each. -/
def pieces (width : Nat) : Nat → Bytes → List Bytes
  | 0, _ => []
  | n + 1, bs => bs.take width :: pieces width n (bs.drop width)

/-- The words of `width` bytes in `bs`; an incomplete word at the end is dropped. -/
def words (width : Nat) (bs : Bytes) : List Bytes := pieces width (bs.length / width) bs

/-- The bytes of a text. -/
def text (s : String) : Bytes := s.toUTF8.data.toList

/-- The text that `bs` encode, when they encode one. -/
def toText? (bs : Bytes) : Option String := String.fromUTF8? ⟨bs.toArray⟩

end Wire

end GraphRelay
