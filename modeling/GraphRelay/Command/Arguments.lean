import GraphRelay.Decimal
import GraphRelay.EdgeList
import GraphRelay.PeerTable

/-!
# Command lines

What a command line asks for. Options are written `--name value` or `--name=value`; the two options
that every command takes may also stand before the command. A value must not look like an option
unless it is attached to its name.
-/
namespace GraphRelay

inductive ReportFormat where
  | text
  | json
  deriving DecidableEq, Repr

/-- The file of an edge list and how to read it. -/
structure EdgeListInput where
  path : String
  source : EdgeListSource
  deriving DecidableEq, Repr

structure PartitionRequest where
  input : EdgeListInput
  parts : Option Nat
  hops : Option Nat
  /-- Where the edges of each part are written. -/
  outDir : Option String
  deriving DecidableEq, Repr

structure ServeRequest where
  address : String
  /-- How many senders are waited for. -/
  senders : Nat
  deriving DecidableEq, Repr

structure PushRequest where
  address : String
  name : String
  ids : String
  values : String
  rank : Int32
  sender : PeerId
  deriving DecidableEq, Repr

inductive Request where
  | stats (input : EdgeListInput)
  | partition (request : PartitionRequest)
  | serve (request : ServeRequest)
  | push (request : PushRequest)
  deriving DecidableEq, Repr

structure Invocation where
  /-- The settings document to use in place of the usual one. -/
  settings : Option String
  format : ReportFormat
  request : Request
  deriving DecidableEq, Repr

namespace CommandLine

/-- An option, which takes a value. -/
structure OptionRule where
  name : String
  /-- What stands for the value in a usage. -/
  value : String
  about : String
  accepts : String → Bool
  /-- What counts if the option is not given. -/
  preset : Option String := none
  /-- Whether a command cannot do without it. -/
  needed : Bool := false
  /-- The only values that it takes, if they are few. -/
  choices : List String := []
  /-- The variable that counts if the option is not given. -/
  environmentName : Option String := none

/-- What can stand on a part of a command line. -/
structure Grammar where
  /-- The words that lead to this part. -/
  title : String
  about : String
  options : List OptionRule
  /-- Options that may stand on any part. -/
  shared : List OptionRule
  /-- The values without a name, and what they are. -/
  places : List (String × String)
  /-- The words that start another part, and what they do. -/
  commands : List (String × String)
  hasVersion : Bool

/-- What a part of a command line gives. -/
structure Given where
  /-- Values by their options. -/
  named : List (String × String)
  /-- Values without a name. -/
  placed : List String
  /-- The word that starts the next part, and that part. -/
  next : Option (String × List String)
  deriving DecidableEq, Repr

inductive Scan where
  | given (g : Given)
  | help
  | version
  | misuse
  deriving DecidableEq, Repr

namespace Grammar

def rule? (g : Grammar) (option : String) : Option OptionRule :=
  (g.options ++ g.shared).find? (·.name = option)

/-- Takes a value for an option, which may be given only once. -/
def name (g : Grammar) (given : Given) (option value : String) : Option Given :=
  match g.rule? option with
  | none => none
  | some rule =>
    if (given.named.lookup option).isSome || !rule.accepts value then none
    else some { given with named := given.named ++ [(option, value)] }

/-- Takes a value without a name. -/
def place (g : Grammar) (given : Given) (value : String) : Option Given :=
  if g.places.length ≤ given.placed.length || value.isEmpty then none
  else some { given with placed := given.placed ++ [value] }

/-- Behind a double dash every word is a value without a name. -/
def placeAll (g : Grammar) (given : Given) (words : List String) : Scan :=
  match words.foldlM (g.place ·) given with
  | some given => .given given
  | none => .misuse

/-- The text behind the dashes of a long option, split at the first equals sign. -/
def splitOption (cs : List Char) : String × Option String :=
  let name := String.ofList (cs.takeWhile (· ≠ '='))
  match cs.dropWhile (· ≠ '=') with
  | [] => (name, none)
  | _ :: value => (name, some (String.ofList value))

def looksLikeOption (word : String) : Bool := word.startsWith "-" && word ≠ "-"

/-- A long option without a value of its own. -/
def bare (g : Grammar) (option : String) : Scan :=
  if option = "help" then .help
  else if option = "version" && g.hasVersion then .version
  else .misuse

/-- Short options tell themselves apart by their first letter. -/
def short (g : Grammar) (cs : List Char) : Scan :=
  match cs.head? with
  | some 'h' => .help
  | some 'V' => if g.hasVersion then .version else .misuse
  | _ => .misuse

def scan (g : Grammar) (given : Given) : List String → Scan
  | [] => .given given
  | word :: rest =>
    if g.commands.any (·.1 = word) then .given { given with next := some (word, rest) }
    else
      match word.toList with
      | ['-', '-'] => g.placeAll given rest
      | '-' :: '-' :: cs =>
        let (option, attached) := splitOption cs
        if (g.rule? option).isSome then
          match attached, rest with
          | some value, rest =>
            match g.name given option value with
            | some given => scan g given rest
            | none => .misuse
          | none, value :: rest =>
            if looksLikeOption value then .misuse
            else
              match g.name given option value with
              | some given => scan g given rest
              | none => .misuse
          | none, [] => .misuse
        else if attached.isSome then .misuse
        else g.bare option
      | '-' :: c :: cs => g.short (c :: cs)
      | _ =>
        match g.place given word with
        | some given => scan g given rest
        | none => .misuse

end Grammar

def anyText : String → Bool := fun _ => true

def nonEmpty (s : String) : Bool := !s.isEmpty

def format? (s : String) : Option ReportFormat :=
  if s = "text" then some .text else if s = "json" then some .json else none

def count? (s : String) : Option Nat := Decimal.parse? UInt64.size s

def int32? (s : String) : Option Int32 := (Decimal.parseSigned? 0x80000000 s).map .ofInt

def isCount (s : String) : Bool := (count? s).isSome

def isInt32 (s : String) : Bool := (int32? s).isSome

/-- The variable of the environment that may name a settings document. -/
def settingsVariable : String := "STRATA_CONFIG"

/-- The options that every command takes. -/
def sharedOptions : List OptionRule :=
  [{ name := "config", value := "FILE",
     about := "Config file (defaults to <config dir>/strata/config.toml)",
     accepts := nonEmpty, environmentName := some settingsVariable },
   { name := "format", value := "FORMAT", about := "Output format for structured responses",
     accepts := fun s => (format? s).isSome, preset := some "text", choices := ["text", "json"] }]

def listOptions : List OptionRule :=
  [{ name := "src-column", value := "SRC_COLUMN", about := "Edge source column name",
     accepts := anyText, preset := some "src" },
   { name := "dst-column", value := "DST_COLUMN", about := "Edge destination column name",
     accepts := anyText, preset := some "dst" },
   { name := "num-vertices", value := "NUM_VERTICES",
     about := "Vertex count (defaults to the largest id plus one)", accepts := isCount }]

def listPlaces : List (String × String) := [("EDGES", "CSV edge list with a header row")]

def commands : List (String × String) :=
  [("stats", "Report vertex, edge and degree statistics"),
   ("partition", "Split a graph into halo partitions"),
   ("serve", "Receive key/value messages until every sender finishes"),
   ("push", "Send one push message")]

def mainGrammar : Grammar where
  title := "strata"
  about := "Inspect, partition and exchange graph data"
  options := []
  shared := sharedOptions
  places := []
  commands := commands
  hasVersion := true

/-- A command with its own options and values without a name. -/
def commandGrammar (word : String) (options : List OptionRule) (places : List (String × String)) :
    Grammar where
  title := "strata " ++ word
  about := (commands.lookup word).getD ""
  options := options
  shared := sharedOptions
  places := places
  commands := []
  hasVersion := false

def statsGrammar : Grammar := commandGrammar "stats" listOptions listPlaces

def partitionGrammar : Grammar :=
  commandGrammar "partition"
    (listOptions ++
      [{ name := "parts", value := "PARTS", about := "Number of partitions", accepts := isCount },
       { name := "hops", value := "HOPS", about := "Halo depth in hops", accepts := isCount },
       { name := "out-dir", value := "DIR", about := "Write each partition's edges as CSV",
         accepts := nonEmpty }])
    listPlaces

/-- The form of the addresses that links have. -/
def addressForm : String := "socket://HOST:PORT"

def serveGrammar : Grammar :=
  commandGrammar "serve"
    [{ name := "bind", value := addressForm, about := "Address to listen on", accepts := anyText,
       needed := true },
     { name := "senders", value := "SENDERS", about := "Number of senders to wait for",
       accepts := isCount, preset := some "1" }]
    []

def pushGrammar : Grammar :=
  commandGrammar "push"
    [{ name := "to", value := addressForm, about := "Receiver address", accepts := anyText,
       needed := true },
     { name := "name", value := "NAME", about := "Parameter name", accepts := anyText,
       needed := true },
     { name := "ids", value := "ID,ID", about := "Comma-separated row ids", accepts := anyText,
       needed := true },
     { name := "values", value := "X,X", about := "Comma-separated values, row-major",
       accepts := anyText, needed := true },
     { name := "rank", value := "RANK", about := "Rank reported in the header",
       accepts := isInt32, preset := some "0" },
     { name := "sender-id", value := "SENDER_ID", about := "Logical sender id",
       accepts := isInt32, preset := some "0" }]
    []

namespace Given

def value? (g : Given) (option : String) : Option String := g.named.lookup option

def count? (g : Given) (option : String) : Option Nat := g.value? option >>= CommandLine.count?

def int32? (g : Given) (option : String) : Option Int32 := g.value? option >>= CommandLine.int32?

def listInput? (g : Given) : Option EdgeListInput := do
  let path ← g.placed.head?
  let sourceColumn ← g.value? "src-column"
  let targetColumn ← g.value? "dst-column"
  pure ⟨path, sourceColumn, targetColumn, g.count? "num-vertices"⟩

def stats? (g : Given) : Option Request := g.listInput?.map .stats

def partition? (g : Given) : Option Request := do
  let input ← g.listInput?
  pure (.partition ⟨input, g.count? "parts", g.count? "hops", g.value? "out-dir"⟩)

def serve? (g : Given) : Option Request := do
  let address ← g.value? "bind"
  let senders ← g.count? "senders"
  pure (.serve ⟨address, senders⟩)

def push? (g : Given) : Option Request := do
  let address ← g.value? "to"
  let name ← g.value? "name"
  let ids ← g.value? "ids"
  let values ← g.value? "values"
  let rank ← g.int32? "rank"
  let sender ← g.int32? "sender-id"
  pure (.push ⟨address, name, ids, values, rank, sender⟩)

end Given

/-- What a part gives with the presets of its own options. -/
def Grammar.complete (g : Grammar) (given : Given) : Given :=
  { given with
    named := given.named ++ g.options.filterMap fun o => o.preset.map fun value => (o.name, value) }

structure CommandRule where
  grammar : Grammar
  request? : Given → Option Request

/-- What may follow a command, and the request that it makes. -/
def command? (word : String) : Option CommandRule :=
  match word with
  | "stats" => some ⟨statsGrammar, Given.stats?⟩
  | "partition" => some ⟨partitionGrammar, Given.partition?⟩
  | "serve" => some ⟨serveGrammar, Given.serve?⟩
  | "push" => some ⟨pushGrammar, Given.push?⟩
  | _ => none

def nothing : Given := ⟨[], [], none⟩

/-- The settings document: named after the command, before it, or else in the environment. A
variable that is set to nothing counts as misuse wherever it would be used. -/
def settings? (environment : Option String) (outer inner : Given) : Option (Option String) :=
  let named := (inner.value? "config").orElse fun () => outer.value? "config"
  let both := (inner.value? "config").isSome && (outer.value? "config").isSome
  match environment with
  | none => some named
  | some "" => if both then some named else none
  | some path => some (named.getD path)

def CommandRule.invocation? (rule : CommandRule) (environment : Option String)
    (outer inner : Given) : Option Invocation := do
  let settings ← settings? environment outer inner
  let request ← rule.request? (rule.grammar.complete inner)
  let format := (inner.value? "format").orElse fun () => outer.value? "format"
  pure ⟨settings, (format >>= format?).getD .text, request⟩

/-- What a command line amounts to. -/
inductive Intent where
  | invoke (invocation : Invocation)
  /-- Someone asks what may stand on a part. -/
  | help (grammar : Grammar)
  | version
  /-- What is wrong is told from what may stand on a part. -/
  | misuse (grammar : Grammar)

/-- Reads a command line; the environment may name a settings document. -/
def parse (environment : Option String) (words : List String) : Intent :=
  match mainGrammar.scan nothing words with
  | .help => .help mainGrammar
  | .version => .version
  | .misuse => .misuse mainGrammar
  | .given outer =>
    match outer.next with
    | none => .misuse mainGrammar
    | some (word, rest) =>
      match command? word with
      | none => .misuse mainGrammar
      | some rule =>
        match rule.grammar.scan nothing rest with
        | .help => .help rule.grammar
        | .version => .version
        | .misuse => .misuse rule.grammar
        | .given inner =>
          match rule.invocation? environment outer inner with
          | some i => .invoke i
          | none => .misuse rule.grammar

end CommandLine

end GraphRelay
