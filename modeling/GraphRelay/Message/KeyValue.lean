import GraphRelay.Message.Kind
import GraphRelay.Tensor
import GraphRelay.Wire.Reader

/-!
# Key/value messages

An operation on a parameter store. Its kind decides which of name, ids and values belong to it;
`KeyValue.validate` says whether a message has exactly those. The header holds kind, rank and name;
ids and values travel separately.
-/
namespace GraphRelay

structure KeyValue where
  kind : MessageKind
  /-- The rank of the peer that sends the message. -/
  rank : Int32
  name : Option String
  ids : Option Tensor
  values : Option Tensor
  deriving DecidableEq, Repr

namespace KeyValue

/-- A message without name, ids and values. -/
def bare (kind : MessageKind) (rank : Int32) : KeyValue := ⟨kind, rank, none, none, none⟩

def final (rank : Int32) : KeyValue := bare .final rank

def barrier (rank : Int32) : KeyValue := bare .barrier rank

/-- An announcement of the sender's address. -/
def idExchange (rank : Int32) (address : String) : KeyValue :=
  { bare .idExchange rank with name := some address }

def pull (rank : Int32) (name : String) (ids : Tensor) : KeyValue :=
  { bare .pull rank with name := some name, ids := some ids }

def push (rank : Int32) (name : String) (ids values : Tensor) : KeyValue :=
  { bare .push rank with name := some name, ids := some ids, values := some values }

/-- The first section that is missing or does not belong here, with whether it is missing. -/
def misplacedSection? (m : KeyValue) : Option (String × Bool) :=
  let sections := [("name", m.kind.carriesName, m.name.isSome),
    ("id tensor", m.kind.carriesIds, m.ids.isSome),
    ("data tensor", m.kind.carriesValues, m.values.isSome)]
  (sections.find? fun (_, carried, present) => carried ≠ present).map fun (part, carried, _) =>
    (part, carried)

/-- Refuses a message whose sections are not those of its kind. -/
def validate (m : KeyValue) : Except Fault Unit :=
  if !m.kind.isKeyValue then .error (.notKeyValue m.kind.name)
  else
    match m.misplacedSection? with
    | none => .ok ()
    | some (part, true) => .error (.missingSection m.kind.name part)
    | some (part, false) => .error (.unexpectedSection m.kind.name part)

/-- A message with all three sections, for the kinds that carry them. -/
def withValues (kind : MessageKind) (rank : Int32) (name : String) (ids values : Tensor) :
    Except Fault KeyValue :=
  let m : KeyValue := ⟨kind, rank, some name, some ids, some values⟩
  m.validate.map fun () => m

def header (m : KeyValue) : Bytes :=
  let name := Wire.text (m.name.getD "")
  Wire.int32 m.kind.tag ++ Wire.int32 m.rank
    ++ if m.kind.carriesName then Wire.count name.length ++ name else []

def encodeHeader (m : KeyValue) : Except Fault Bytes :=
  m.validate.map fun () => m.header

open Wire Reader

def nameReader : Reader String := do
  let length ← Reader.count
  let bytes ← take length
  match toText? bytes with
  | some name => return name
  | none => throw .nameEncoding

def headerReader : Reader KeyValue := do
  let kind ← MessageKind.ofTag (← Reader.int32)
  if !kind.isKeyValue then throw (.receivedNotKeyValue kind.name)
  let rank ← Reader.int32
  let m ←
    if kind.carriesName then do
      let name ← nameReader
      pure { bare kind rank with name := some name }
    else pure (bare kind rank)
  finish
  return m

/-- The message that a header announces, still without ids and values. -/
def decodeHeader (bs : Bytes) : Except Fault KeyValue := Reader.run headerReader bs

end KeyValue

end GraphRelay
