import GraphRelay.Csv.Codec
import GraphRelay.Decimal
import GraphRelay.Files
import GraphRelay.FrozenGraph.Basic
import GraphRelay.Text.Blank

/-!
# Edge lists

Edges in a table with a header: one column holds the sources, another the destinations. Without a
requested number of vertices there are as many as the largest id calls for.
-/
namespace GraphRelay

structure EdgeList where
  vertexCount : Nat
  /-- Source and destination of each edge, in the order of the file. -/
  rows : List (Nat × Nat)
  deriving DecidableEq, Repr

/-- Why a table is not an edge list. -/
inductive EdgeListFault where
  | unreadable (fault : FileFault)
  | encoding (fault : Csv.EncodingFault)
  | missingColumn (name : String)
  | missingValue (row : Nat) (column : String)
  | badValue (row : Nat) (column value : String)
  | vertexLimit (vertex : Nat)
  | tooFewVertices (vertex requested : Nat)
  deriving DecidableEq, Repr

def EdgeListFault.text : EdgeListFault → String
  | unreadable f => f.text
  | encoding f => f.text
  | missingColumn name => "column '" ++ name ++ "' not found"
  | missingValue row column => s!"row {row}: missing value for column '" ++ column ++ "'"
  | badValue row column value =>
      s!"row {row}: column '" ++ column ++ "' holds '" ++ value ++ "', expected a vertex id"
  | vertexLimit v => s!"vertex id {v} leaves no room for a vertex count"
  | tooFewVertices v n => s!"edge list references vertex {v} but only {n} vertices were requested"

/-- Which columns to read, and how many vertices to make room for. -/
structure EdgeListSource where
  sourceColumn : String
  targetColumn : String
  vertexCount : Option Nat
  deriving DecidableEq, Repr

namespace EdgeList

def sources (l : EdgeList) : List Nat := l.rows.map Prod.fst

def targets (l : EdgeList) : List Nat := l.rows.map Prod.snd

/-- The first column of that name, whose header may have blanks around it and any case. -/
def column (headers : List String) (name : String) : Except EdgeListFault Nat :=
  match headers.findIdx? fun h => Text.sameLetters (Text.trim h) name with
  | some i => .ok i
  | none => .error (.missingColumn name)

/-- The vertex id in a column of a row. -/
def vertexIn (fields : List String) (index : Nat) (column : String) (row : Nat) :
    Except EdgeListFault Nat :=
  let value := Text.trim (fields[index]?.getD "")
  if value.isEmpty then .error (.missingValue row column)
  else
    match Decimal.parse? UInt64.size value with
    | some v => .ok v
    | none => .error (.badValue row column value)

/-- The edge in a record, the record being row number `row`. -/
def readRow (source : EdgeListSource) (i j : Nat)
    (record : Except Csv.EncodingFault (List String)) (row : Nat) :
    Except EdgeListFault (Nat × Nat) := do
  let fields ← record.mapError .encoding
  let s ← vertexIn fields i source.sourceColumn row
  let t ← vertexIn fields j source.targetColumn row
  pure (s, t)

/-- The number of vertices that the largest id calls for. -/
def neededVertices (rows : List (Nat × Nat)) : Except EdgeListFault Nat :=
  match (rows.flatMap fun (s, t) => [s, t]).max? with
  | none => .ok 0
  | some v => if v + 1 < UInt64.size then .ok (v + 1) else .error (.vertexLimit v)

/-- An edge list from its rows; a requested number of vertices has to suffice. -/
def ofRows (requested : Option Nat) (rows : List (Nat × Nat)) : Except EdgeListFault EdgeList := do
  let needed ← neededVertices rows
  match requested with
  | none => .ok ⟨needed, rows⟩
  | some n => if n < needed then .error (.tooFewVertices (needed - 1) n) else .ok ⟨n, rows⟩

/-- The names of the columns; without any record there are none. -/
def headers : List (Except Csv.EncodingFault (List String)) → Except EdgeListFault (List String)
  | [] => .ok []
  | header :: _ => header.mapError .encoding

section Codec

variable (csv : Csv.Codec)

/-- The edges in a table, in order. -/
def rowsIn (source : EdgeListSource) (content : Bytes) :
    Except EdgeListFault (List (Nat × Nat)) := do
  let records := csv.read content
  let names ← headers records
  let i ← column names source.sourceColumn
  let j ← column names source.targetColumn
  (records.drop 1).zipIdx.mapM fun (record, row) => readRow source i j record row

def parse (source : EdgeListSource) (content : Bytes) : Except EdgeListFault EdgeList := do
  ofRows source.vertexCount (← rowsIn csv source content)

/-- Reads the edge list in a file that may not be there. -/
def load (source : EdgeListSource) (content : Except FileFault Bytes) :
    Except EdgeListFault EdgeList := do
  parse csv source (← content.mapError .unreadable)

/-- What a file shows of an edge. -/
def shown (row : Nat × Nat) : List String := [toString row.1, toString row.2]

/-- The file with a row for each source that has a destination. -/
def write (sources targets : List Nat) : Bytes :=
  csv.write (["src", "dst"] :: (sources.zip targets).map shown)

end Codec

/-- The columns of a file that `write` made. -/
def writtenSource : EdgeListSource := ⟨"src", "dst", none⟩

/-- Edge `i` gets the id `i`. -/
def graph (l : EdgeList) : Option (Except Fault FrozenGraph) :=
  FrozenGraph.build l.vertexCount l.sources l.targets none none

end EdgeList

end GraphRelay
