import GraphRelay.Csv.Record

/-!
# Reading and writing tables

What edge lists ask of whoever knows how a table is written down: the records of a text, and the text
of a table. The commands run with `Codec.standard`, which puts a field between quotes only where a reader
would not find its ends otherwise.
-/
namespace GraphRelay.Csv

structure Codec where
  /-- The records of a text in order, with the texts of their fields if all of them are texts. -/
  read : Bytes → List (Except EncodingFault (List String))
  /-- The text of a table, row by row. -/
  write : List (List String) → Bytes

/-- Whether a field has a comma, a quote or a line end in it. -/
def needsQuotes (field : Bytes) : Bool := field.any fun b => b = comma || b = quote || isBreak b

/-- A field between quotes, with its own quotes doubled. -/
def quoted (field : Bytes) : Bytes :=
  quote :: (field.flatMap fun b => if b = quote then [quote, quote] else [b]) ++ [quote]

def writeField (s : String) : Bytes :=
  let field := Wire.text s
  if needsQuotes field then quoted field else field

def joinFields : List Bytes → Bytes
  | [] => []
  | [field] => field
  | field :: row => field ++ comma :: joinFields row

/-- The line for a row. One without any bytes gets quotes, so that it is not blank. -/
def writeRow (row : List String) : Bytes :=
  let line := joinFields (row.map writeField)
  (if line.isEmpty then [quote, quote] else line) ++ [10]

def Codec.standard : Codec where
  read bs := (records bs).map Record.texts
  write table := table.flatMap writeRow

end GraphRelay.Csv
