/-!
# Settings data

The tree that a settings document spells out.
-/
namespace GraphRelay

inductive Datum where
  | null
  | truth (b : Bool)
  | integer (i : Int)
  | text (s : String)
  | list (items : List Datum)
  | table (entries : List (String × Datum))
  /-- A number that is not written as a whole one; no setting takes it. -/
  | fraction
  /-- A date, a time or both. Its parts have names that no setting has. -/
  | moment
  deriving Inhabited, Repr

namespace Datum

/-- A non-negative integer that fits into 64 bits. -/
def toCount? : Datum → Option Nat
  | integer i => if 0 ≤ i && i < UInt64.size then some i.toNat else none
  | _ => none

def toTruth? : Datum → Option Bool
  | truth b => some b
  | _ => none

/-- The named parts of a datum that has some. -/
def entries? : Datum → Option (List (String × Datum))
  | table entries => some entries
  | moment => some []
  | _ => none

/-- The outer option tells whether the datum is fit, the inner one whether it is present. -/
def toOptionalCount? : Datum → Option (Option Nat)
  | null => some none
  | d => d.toCount?.map some

/-- Reads what stands there with `read`; an absent datum leaves `fallback`. -/
def orElse {α : Type} (read : Datum → Option α) (fallback : α) : Option Datum → Option α
  | none => some fallback
  | some d => read d

end Datum

end GraphRelay
