import GraphRelay.Wire.Word

/-!
# Comma-separated records

Records of fields, with commas between the fields of a record. A record ends at a line feed or a
carriage return; further ones before the next record belong to no record, so that blank lines are
skipped. A field may be quoted; inside quotes commas and line ends are text, and a quote is written
twice.
-/
namespace GraphRelay.Csv

def comma : UInt8 := 44

def quote : UInt8 := 34

/-- Line feed or carriage return. -/
def isBreak (b : UInt8) : Bool := b = 10 || b = 13

/-- What the bytes read so far say about the next one. -/
inductive Phase where
  /-- No record has begun. -/
  | between
  | fieldStart
  | plain
  | quoted
  /-- A quote was read inside a quoted field: it ends there or the quote is doubled. -/
  | afterQuote
  deriving DecidableEq, Repr

/-- The part of a record that has been read: its finished fields and the bytes of the field under
way, both last first. -/
structure Draft where
  fields : List Bytes
  field : Bytes
  deriving DecidableEq, Repr

namespace Draft

def empty : Draft := ⟨[], []⟩

def push (d : Draft) (b : UInt8) : Draft := { d with field := b :: d.field }

def endField (d : Draft) : Draft := ⟨d.field.reverse :: d.fields, []⟩

def record (d : Draft) : List Bytes := d.endField.fields.reverse

end Draft

/-- A place in a text: how many records, line feeds and bytes lie before. Lines count from one. -/
structure Position where
  record : Nat
  line : Nat
  byte : Nat
  deriving DecidableEq, Repr

namespace Position

def origin : Position := ⟨0, 1, 0⟩

/-- The place behind a byte. -/
def pass (p : Position) (b : UInt8) : Position :=
  { p with line := if b = 10 then p.line + 1 else p.line, byte := p.byte + 1 }

end Position

structure Record where
  /-- Where the record was looked for. -/
  position : Position
  fields : List Bytes
  deriving DecidableEq, Repr

/-- How far a text has been read. -/
structure Reading where
  phase : Phase
  draft : Draft
  /-- Where the record under way was looked for. -/
  anchor : Position
  position : Position
  /-- The finished records, last first. -/
  records : List Record
  deriving DecidableEq, Repr

namespace Reading

def enter (r : Reading) (phase : Phase) : Reading := { r with phase := phase }

/-- The byte belongs to a field; what follows is read in `phase`. -/
def keep (r : Reading) (b : UInt8) (phase : Phase) : Reading :=
  { r with phase := phase, draft := r.draft.push b }

def endField (r : Reading) : Reading := { r with phase := .fieldStart, draft := r.draft.endField }

/-- The record is complete and the next one is looked for from here. -/
def endRecord (r : Reading) : Reading :=
  let position := { r.position with record := r.position.record + 1 }
  ⟨.between, .empty, position, position, ⟨r.anchor, r.draft.record⟩ :: r.records⟩

/-- What a byte means where a field may begin or end; any other byte is part of a field. -/
def plain (r : Reading) (b : UInt8) : Reading :=
  if b = comma then r.endField else if isBreak b then r.endRecord else r.keep b .plain

def step (r : Reading) (b : UInt8) : Reading :=
  let r := { r with position := r.position.pass b }
  match r.phase with
  | .between => if isBreak b then r else if b = quote then r.enter .quoted else r.plain b
  | .fieldStart => if b = quote then r.enter .quoted else r.plain b
  | .plain => r.plain b
  | .quoted => if b = quote then r.enter .afterQuote else r.keep b .quoted
  | .afterQuote => if b = quote then r.keep b .quoted else r.plain b

/-- All records; at the end of the text one that has begun is complete. -/
def finish (r : Reading) : List Record :=
  (if r.phase = .between then r.records else r.endRecord.records).reverse

/-- Nothing is read but `mark` bytes in front of the text. -/
def start (mark : Nat) : Reading :=
  ⟨.between, .empty, .origin, { Position.origin with byte := mark }, []⟩

end Reading

/-- The bytes of a mark that may open a text and says how it is encoded. -/
def byteOrderMark : Bytes := [0xef, 0xbb, 0xbf]

/-- Every record of a text; a byte order mark in front is passed over. -/
def records (bs : Bytes) : List Record :=
  let mark := if byteOrderMark.isPrefixOf bs then byteOrderMark.length else 0
  ((bs.drop mark).foldl Reading.step (.start mark)).finish

/-- A field that is not text: where its record stands, which field it is, and how many of its bytes
still are text. -/
structure EncodingFault where
  position : Position
  field : Nat
  valid : Nat
  deriving DecidableEq, Repr

namespace EncodingFault

def text (f : EncodingFault) : String :=
  s!"CSV parse error: record {f.position.record} (line {f.position.line}, field: {f.field}, " ++
    s!"byte: {f.position.byte}): invalid utf-8: invalid UTF-8 in field {f.field} " ++
    s!"near byte index {f.valid}"

end EncodingFault

/-- The length of the longest part from the front of `bs` that is text. -/
def validLength (bs : Bytes) : Nat :=
  ((List.range (bs.length + 1)).reverse.find? fun n => (Wire.toText? (bs.take n)).isSome).getD 0

/-- The fields as texts, numbered from `i`. -/
def decodeFields (position : Position) (i : Nat) : List Bytes → Except EncodingFault (List String)
  | [] => .ok []
  | field :: rest =>
    match Wire.toText? field with
    | none => .error ⟨position, i, validLength field⟩
    | some text => (decodeFields position (i + 1) rest).map (text :: ·)

def Record.texts (r : Record) : Except EncodingFault (List String) :=
  decodeFields r.position 0 r.fields

end GraphRelay.Csv
