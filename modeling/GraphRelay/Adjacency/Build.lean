import GraphRelay.Adjacency.Basic

/-!
# Building adjacency

From compressed arrays, from coordinate lists, and from the other direction. Coordinates fall into
the rows stably: a row keeps its entries in the order they were listed.
-/
namespace GraphRelay.Adjacency

/-- Pieces of the given lengths, cut off one after the other. -/
def cut {α : Type} : List Nat → List α → List (List α)
  | [], _ => []
  | n :: lengths, xs => xs.take n :: cut lengths (xs.drop n)

/-- The differences of neighbouring offsets. -/
def rowLengths (offsets : List Nat) : List Nat :=
  (offsets.zip offsets.tail).map fun (a, b) => b - a

/-- Adopts compressed arrays: `offsets` starts at 0, never decreases and ends at the neighbor count;
there is one edge id per neighbor; every neighbor has a row. -/
def ofArrays (offsets neighbors edgeIds : List Nat) : Except Fault Adjacency :=
  match offsets with
  | [] => .error .noOffsets
  | first :: rest =>
    if first ≠ 0 then .error (.firstOffset first)
    else if neighbors.length ≠ edgeIds.length then
      .error (.arrayLengths neighbors.length edgeIds.length)
    else match (offsets.zip rest).findIdx? (fun (a, b) => b < a) with
    | some i => .error (.decreasingOffset i)
    | none =>
      let last := rest.getLast?.getD first
      if last ≠ neighbors.length then .error (.lastOffset last neighbors.length)
      else match neighbors.find? (rest.length ≤ ·) with
      | some v => .error (.neighborOutside v rest.length)
      | none => .ok (ofRows (cut (rowLengths offsets) (List.zipWith Arc.mk neighbors edgeIds)))

/-- How many entries each row gets, counted one place behind the row's own. -/
def countRows (n : Nat) (entries : List Entry) : Array Nat :=
  entries.foldl (fun counts e => counts.modify (e.row + 1) (· + 1)) (Array.replicate (n + 1) 0)

/-- Adds what stands in the place before to each of the places 1 to `n`, from the left. -/
def accumulate (n : Nat) (counts : Array Nat) : Array Nat :=
  n.fold (fun i _ sums =>
    let before := sums[i]?.getD 0
    sums.modify (i + 1) (· + before)) counts

/-- Writes an arc to the place that the cursor of its row points at and moves the cursor on. -/
def place (cursorsAndSlots : Array Nat × Array Arc) (e : Entry) : Array Nat × Array Arc :=
  match cursorsAndSlots with
  | (cursors, slots) =>
    match cursors[e.row]? with
    | none => (cursors, slots)
    | some slot => (cursors.modify e.row (· + 1), slots.setIfInBounds slot e.arc)

/-- Puts each entry into its row, in order, by a counting sort. Entries outside the `n` rows are
dropped. -/
def distribute (n : Nat) (entries : List Entry) : List (List Arc) :=
  let starts := accumulate n (countRows n entries)
  let (_, slots) :=
    entries.foldl place (starts.extract 0 n, Array.replicate entries.length ⟨0, 0⟩)
  cut (rowLengths starts.toList) slots.toList

def ofEntries (n : Nat) (entries : List Entry) : Adjacency := ofRows (distribute n entries)

/-- Entries from parallel lists. -/
def zipEntries (rows cols ids : List Nat) : List Entry :=
  List.zipWith (fun (r, c) e => ⟨r, c, e⟩) (rows.zip cols) ids

/-- The entries that coordinates list, if there are `n` rows for them. Without `ids` an edge is
numbered by its position. -/
def entriesWithin (n : Nat) (rows cols : List Nat) (ids : Option (List Nat)) :
    Except Fault (List Entry) :=
  let ids := ids.getD (List.range rows.length)
  if rows.length ≠ cols.length then .error (.endpointCounts rows.length cols.length)
  else if ids.length ≠ rows.length then .error (.idCount ids.length rows.length)
  else match (rows.zip cols).find? (fun (r, c) => n ≤ r || n ≤ c) with
  | some (r, c) => .error (.entryOutside r c n)
  | none => .ok (zipEntries rows cols ids)

/-- Builds rows from coordinates. -/
def ofCoordinates (n : Nat) (rows cols : List Nat) (ids : Option (List Nat)) :
    Except Fault Adjacency :=
  (entriesWithin n rows cols ids).map (ofEntries n)

/-- The other direction. Edge ids travel with their edges. -/
def transpose (a : Adjacency) : Adjacency :=
  ofEntries a.vertexCount (a.entries.map Entry.swap)

end GraphRelay.Adjacency
