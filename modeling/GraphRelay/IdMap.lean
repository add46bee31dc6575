import GraphRelay.Bisect
import GraphRelay.Fault
import Std.Data.HashMap.Basic

/-!
# Id maps

Positions of ids in a list of parent ids, and the expansion of ids by run lengths.
-/
namespace GraphRelay

/-- The position reported for an id that does not occur. -/
def missingPosition : Int := -1

/-- The first position of `id` in an ascending list. -/
def bisectPosition (parents : List Nat) (id : Nat) : Int :=
  let i := partitionPoint parents (· < id)
  if parents[i]? = some id then i else missingPosition

/-- The first position of every parent. -/
def indexParents (parents : List Nat) : Std.HashMap Nat Nat :=
  parents.zipIdx.foldl (fun index (id, i) => index.insertIfNew id i) ∅

/-- The position under which `id` is indexed. -/
def indexedPosition (index : Std.HashMap Nat Nat) (id : Nat) : Int :=
  match index[id]? with
  | some i => i
  | none => missingPosition

/-- The first position of each queried id. Ascending parents are bisected, others are indexed. -/
def positionsIn (parents query : List Nat) : List Int :=
  if isAscending parents then query.map (bisectPosition parents)
  else
    let index := indexParents parents
    query.map (indexedPosition index)

/-- Repeats each id as often as its two offsets are apart. -/
def repeatRuns : List Nat → List Nat → List Nat
  | id :: ids, a :: b :: offsets => List.replicate (b - a) id ++ repeatRuns ids (b :: offsets)
  | _, _ => []

/-- Expands `ids` by the runs that `offsets` delimit. -/
def expandRuns (ids offsets : List Nat) : Except Fault (List Nat) :=
  if offsets.length ≠ ids.length + 1 then .error (.offsetCount offsets.length ids.length)
  else if offsets.head? ≠ some 0 || !isAscending offsets then .error .offsetOrder
  else .ok (repeatRuns ids offsets)

end GraphRelay
