/-!
# Blanks

The characters that Unicode counts as white space, and texts without blanks at their ends.
-/
namespace GraphRelay.Text

/-- The code points of white space outside the ranges U+0009 to U+000D and U+2000 to U+200A. -/
def scatteredBlanks : List Nat :=
  [0x20, 0x85, 0xa0, 0x1680, 0x2028, 0x2029, 0x202f, 0x205f, 0x3000]

def isBlank (c : Char) : Bool :=
  (0x9 ≤ c.toNat && c.toNat ≤ 0xd) || (0x2000 ≤ c.toNat && c.toNat ≤ 0x200a)
    || scatteredBlanks.contains c.toNat

/-- Drops the blanks at both ends. -/
def trimChars (cs : List Char) : List Char :=
  ((cs.dropWhile isBlank).reverse.dropWhile isBlank).reverse

def trim (s : String) : String := String.ofList (trimChars s.toList)

/-- Equality of texts up to the case of the letters A to Z. -/
def sameLetters (a b : String) : Bool :=
  a.toList.map Char.toLower = b.toList.map Char.toLower

end GraphRelay.Text
