import GraphRelay.ElementType

/-!
# Faults

Every way an operation can be refused, one constructor per reason. A fault belongs to one of five
kinds; `Fault.message` is the text a user reads, the kind's label followed by the reason.
-/
namespace GraphRelay

inductive FaultKind where
  | construction
  | query
  | protocol
  | transport
  | precondition
  deriving DecidableEq, Repr

def FaultKind.label : FaultKind → String
  | construction => "construction"
  | query => "query"
  | protocol => "protocol"
  | transport => "transport"
  | precondition => "precondition"

/-- Bracketed and comma-separated, as lists are quoted inside messages. -/
def quoteList (items : List String) : String :=
  "[" ++ ", ".intercalate items ++ "]"

/-- Why a shape and a buffer do not make a tensor. -/
inductive ShapeFault where
  | byteCount (shape : List Int) (needed found : Nat)
  | negativeDimension (dimension : Int)
  | sizeOverflow
  deriving DecidableEq, Repr

def ShapeFault.text : ShapeFault → String
  | byteCount shape needed found =>
      s!"tensor of shape {quoteList (shape.map toString)} needs {needed} bytes, got {found}"
  | negativeDimension d => s!"negative dimension {d}"
  | sizeOverflow => "tensor size overflows usize"

inductive Fault where
  -- building adjacency
  | endpointCounts (sources destinations : Nat)
  | idCount (ids edges : Nat)
  | entryOutside (row col vertices : Nat)
  | noOffsets
  | firstOffset (found : Nat)
  | arrayLengths (neighbors ids : Nat)
  | decreasingOffset (row : Nat)
  | lastOffset (last neighbors : Nat)
  | neighborOutside (neighbor vertices : Nat)
  | unknownDirection (text : String)
  | rejectedEdge (reason : Fault)
  -- asking a graph
  | vertexOutside (vertex vertices : Nat)
  | edgeOutside (edge edges : Nat)
  | zeroRadius
  | unpaired (sources destinations : Nat)
  | missingEdge (edge : Nat)
  | unknownLayout (text : String)
  -- deriving graphs
  | repeatedVertex (vertex : Nat)
  | repeatedEdge (edge : Nat)
  | parallelEdge (src dst : Nat)
  | idWidth (bits : Nat)
  | idsTooWide (bits : Nat)
  | needsImmutable (operation : String)
  | needsMutable (operation : String)
  | emptyUnion
  | mixedUnion (first : String) (position : Nat) (other : String)
  | unevenParts (parts vertices : Nat)
  | sizeSum (total vertices : Nat)
  | crossingEdge (edge part : Nat)
  | foreignEdgeId (edge part first stop : Nat)
  | assignmentCount (assignments vertices : Nat)
  | partOutside (part vertices : Nat)
  | offsetCount (offsets ids : Nat)
  | offsetOrder
  -- tensors and messages
  | shape (reason : ShapeFault)
  | receivedShape (reason : ShapeFault)
  | wideId (id : Nat)
  | negativeId (value : Int)
  | elementType (found expected : ElementType)
  | unknownKind (tag : Int)
  | truncated (needed offset total : Nat)
  | trailing (left total : Nat)
  | arrayCountOverflow (count : Nat)
  | arrayCount (count : Int)
  | shortShapes
  | dimensionCount (count : Int)
  | shapeEntries (declared : Nat) (arrays : Int) (used : Nat)
  | notKeyValue (kind : String)
  | receivedNotKeyValue (kind : String)
  | missingSection (kind part : String)
  | unexpectedSection (kind part : String)
  | nameEncoding
  | idArray (what : String)
  | valueArray
  | notVector (shape : List Int)
  | scalarValues
  | unexpectedKind (kind : String)
  | flowArrays (found expected : Nat)
  | kindMismatch (arrays header : String)
  | valueArrays (kind : String) (found expected : Nat)
  -- moving messages
  | oversized (length capacity : Nat)
  | queueClosed
  | linkFull
  | noMessage
  | noMessageFrom (peer : Int)
  | frameOversized (length limit : Nat)
  | address (text problem : String)
  | badPort (text : String)
  | unbound
  | noReceivers
  | lateReceiver
  | repeatedReceiver (peer : Int)
  | receiverMissing (peer : Int)
  | receiverClosed (peer : Int)
  | repeatedSender (peer : Int)
  | noSenders
  | senderMissing (peer : Int)
  | senderClosed (peer : Int)
  | senderFailed (peer : Int) (reason : String)
  | allSendersClosed
  | system (activity reason : String)
  deriving Repr, DecidableEq

namespace Fault

def kind : Fault → FaultKind
  | endpointCounts .. | idCount .. | entryOutside .. | noOffsets | firstOffset .. | arrayLengths ..
  | decreasingOffset .. | lastOffset .. | neighborOutside .. | unknownDirection ..
  | rejectedEdge .. => .construction
  | vertexOutside .. | edgeOutside .. | zeroRadius | unpaired .. | missingEdge ..
  | unknownLayout .. => .query
  | repeatedVertex .. | repeatedEdge .. | parallelEdge .. | idWidth .. | idsTooWide ..
  | needsImmutable .. | needsMutable .. | emptyUnion | mixedUnion .. | unevenParts .. | sizeSum ..
  | crossingEdge .. | foreignEdgeId .. | assignmentCount .. | partOutside .. | offsetCount ..
  | offsetOrder | shape .. | wideId .. | elementType .. | arrayCountOverflow .. | notKeyValue ..
  | missingSection .. | unexpectedSection .. | idArray .. | valueArray | oversized .. | address ..
  | badPort .. | unbound | noReceivers | lateReceiver | repeatedReceiver .. | receiverMissing ..
  | noSenders | senderMissing .. => .precondition
  | receivedShape .. | negativeId .. | unknownKind .. | truncated .. | trailing .. | arrayCount ..
  | shortShapes | dimensionCount .. | shapeEntries .. | receivedNotKeyValue .. | nameEncoding
  | notVector .. | scalarValues | unexpectedKind .. | flowArrays .. | kindMismatch ..
  | valueArrays .. | frameOversized .. => .protocol
  | queueClosed | linkFull | noMessage | noMessageFrom .. | receiverClosed .. | repeatedSender ..
  | senderClosed .. | senderFailed .. | allSendersClosed | system .. => .transport

/-- The reason without the kind's label. -/
def text : Fault → String
  | endpointCounts s d => s!"COO length mismatch: {s} sources vs {d} destinations"
  | idCount i e => s!"COO edge id count {i} does not match edge count {e}"
  | entryOutside r c n => s!"edge ({r}, {c}) references a vertex outside 0..{n}"
  | noOffsets => "indptr must hold at least one entry"
  | firstOffset f => s!"indptr must start at 0, found {f}"
  | arrayLengths n i => s!"indices length {n} does not match edge_ids length {i}"
  | decreasingOffset r => s!"indptr decreases at row {r}"
  | lastOffset l n => s!"indptr ends at {l} but {n} indices were supplied"
  | neighborOutside v n => s!"neighbor {v} outside 0..{n}"
  | unknownDirection t => s!"unknown edge direction '{t}', expected 'in' or 'out'"
  | rejectedEdge reason => reason.kind.label ++ ": " ++ reason.text
  | vertexOutside v n => s!"vertex {v} out of range 0..{n}"
  | edgeOutside e m => s!"edge {e} out of range 0..{m}"
  | zeroRadius => "radius must be at least 1"
  | unpaired s d => s!"cannot pair {s} sources with {d} destinations"
  | missingEdge e => s!"edge {e} does not exist"
  | unknownLayout t => s!"unknown adjacency format '{t}', expected 'csr' or 'coo'"
  | repeatedVertex v => s!"vertex {v} listed twice in subgraph selection"
  | repeatedEdge e => s!"edge {e} listed twice in subgraph selection"
  | parallelEdge s d => s!"edge {s} -> {d} already exists in a simple graph"
  | idWidth b => s!"unsupported id width {b}, expected 32 or 64"
  | idsTooWide b => s!"graph ids do not fit in {b} bits"
  | needsImmutable op => op ++ " requires an immutable graph"
  | needsMutable op => op ++ " requires a mutable graph"
  | emptyUnion => "disjoint union of an empty graph list"
  | mixedUnion a p b => s!"disjoint union mixes variants: input 0 is {a}, input {p} is {b}"
  | unevenParts p n => s!"{p} partitions do not evenly divide {n} vertices"
  | sizeSum t n => s!"partition sizes sum to {t} but the graph has {n} vertices"
  | crossingEdge e p => s!"edge {e} crosses the boundary of partition {p}"
  | foreignEdgeId e p a b => s!"edge id {e} of partition {p} lies outside its block {a}..{b}"
  | assignmentCount a n => s!"{a} partition assignments for {n} vertices"
  | partOutside p n => s!"partition id {p} exceeds the vertex count {n}"
  | offsetCount o i => s!"{o} offsets for {i} ids, expected {i + 1}"
  | offsetOrder => "offsets must start at 0 and be non-decreasing"
  | shape r => r.text
  | receivedShape r => r.text
  | wideId i => s!"id {i} does not fit in int64"
  | negativeId v => s!"negative id {v} in id array"
  | elementType f e => "tensor holds " ++ f.quote ++ ", expected " ++ e.quote
  | unknownKind t => s!"unknown message kind {t}"
  | truncated k o t => s!"unexpected end of message: need {k} bytes at offset {o} of {t}"
  | trailing l t => s!"{l} trailing bytes after a {t}-byte message"
  | arrayCountOverflow c => s!"{c} tensors exceed i32"
  | arrayCount c => s!"array count {c} with a trailing shape section"
  | shortShapes => "shape list ends before every array is described"
  | dimensionCount c => s!"ndim {c} overruns the shape list"
  | shapeEntries d a u => s!"shape list declares {d} entries but {a} arrays use {u}"
  | notKeyValue k => k ++ " is not a key/value message kind"
  | receivedNotKeyValue k => k ++ " is not a key/value message kind"
  | missingSection k p => k ++ " message requires a " ++ p
  | unexpectedSection k p => k ++ " message does not carry a " ++ p
  | nameEncoding => "parameter name is not UTF-8"
  | idArray w => w ++ " must be a one-dimensional int64 array"
  | valueArray => "values must be a float32 array with at least one dimension"
  | notVector s => "expected a one-dimensional array, got shape " ++ quoteList (s.map toString)
  | scalarValues => "value array has no dimensions"
  | unexpectedKind k => "unexpected " ++ k ++ " message in a node flow stream"
  | flowArrays f e => s!"node flow describes {f} arrays, expected {e}"
  | kindMismatch a h => "array metadata of kind " ++ a ++ " follows a " ++ h ++ " header"
  | valueArrays k f e => k ++ s!" describes {f} arrays, expected {e}"
  | oversized l c => s!"message of {l} bytes exceeds queue capacity {c}"
  | queueClosed => "queue is closed"
  | linkFull => "link full"
  | noMessage => "no message"
  | noMessageFrom p => s!"no message from {p}"
  | frameOversized l m => s!"frame of {l} bytes exceeds the limit of {m}"
  | address t p => "address '" ++ t ++ "' " ++ p
  | badPort t => "invalid port in address '" ++ t ++ "'"
  | unbound => "receiver is not bound"
  | noReceivers => "no receivers registered"
  | lateReceiver => "receivers must be added before connect"
  | repeatedReceiver p => s!"receiver {p} registered twice"
  | receiverMissing p => s!"receiver {p} is not connected"
  | receiverClosed p => s!"link to receiver {p} is closed"
  | repeatedSender p => s!"sender id {p} connected twice"
  | noSenders => "receiver has no connected senders"
  | senderMissing p => s!"sender {p} is not connected"
  | senderClosed p => s!"sender {p} closed the link"
  | senderFailed p r => s!"link from sender {p} failed: " ++ r
  | allSendersClosed => "every sender has closed its link"
  | system a r => "I/O during " ++ a ++ ": " ++ r

/-- A failure of the operating system names the activity it struck; every other message is the
kind's label, a colon and the reason. -/
def message (f : Fault) : String :=
  match f with
  | system .. => f.kind.label ++ " " ++ f.text
  | _ => f.kind.label ++ ": " ++ f.text

end Fault

end GraphRelay
