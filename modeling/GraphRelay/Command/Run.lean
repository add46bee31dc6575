import GraphRelay.Command.Arguments
import GraphRelay.Command.Directory
import GraphRelay.Command.Failure
import GraphRelay.Command.Partition
import GraphRelay.Command.Push
import GraphRelay.Command.Serve
import GraphRelay.Command.Stats
import GraphRelay.Command.Usage
import GraphRelay.Link.Outbound
import GraphRelay.Settings.Basic

/-!
# Running commands

What a command writes and how it ends, on any host.
-/
namespace GraphRelay

/-- How a command ends. -/
inductive Ending where
  | success
  | failure (f : Failure)
  /-- The command line means nothing. -/
  | misuse (usage : String)
  /-- It waits for somebody who never calls. -/
  | waits
  deriving DecidableEq, Repr

namespace Ending

def exitCode : Ending → Option Nat
  | success => some 0
  | failure .overflow => some 101
  | failure _ => some 1
  | misuse _ => some 2
  | waits => none

/-- What the user is told, unless that is how to use the program or up to whatever it was built
with. -/
def complaint : Ending → Option String
  | success | waits => some ""
  | failure .overflow => none
  | failure f => some f.complaint
  | misuse _ => none

end Ending

structure Outcome where
  output : String
  ending : Ending
  deriving DecidableEq, Repr

namespace Command

def version : String := "strata 0.1.0\n"

/-- The number of parts when neither command nor settings name one. -/
def defaultParts : Nat := 2

def defaultHops : Nat := 1

/-- An outline as it is written, with a line end. -/
def structured (o : Outline) : String := o.render 0 ++ "\n"

/-- A report in the format asked for. -/
def present (format : ReportFormat) (text : String) (outline : Outline) : String :=
  match format with
  | .text => text
  | .json => structured outline

variable {m : Type → Type} [Monad m] [Host m]

def ofExcept {ε α : Type} (wrap : ε → Failure) (e : Except ε α) : ExceptT Failure m α :=
  ExceptT.mk (pure (e.mapError wrap))

/-- The settings in a document; those of one that does not exist are the default. -/
def loadSettings (named : Option String) : ExceptT Failure m Settings := do
  let directory ← (Host.environment "XDG_CONFIG_HOME" : m (Option String))
  let home ← (Host.environment "HOME" : m (Option String))
  match named.orElse fun () => usualSettings directory home with
  | none => pure .default
  | some path =>
    if ← (Host.holds path : m Bool) then
      let content ← (Host.readFile path : m (Except FileFault Bytes))
      let bytes ← ofExcept (.settingsUnreadable path) content
      match Wire.toText? bytes with
      | none => throw (.settingsUnreadable path .notText)
      | some text =>
        match Settings.parse? text with
        | none => throw .settingsSyntax
        | some settings => pure settings
    else pure .default

/-- The answer to a call, if there is one. -/
def ofCall {α : Type} (answer : Option (Except Fault α)) : ExceptT Failure m α :=
  match answer with
  | none => throw .overflow
  | some e => ofExcept .fault e

def loadGraph (csv : Csv.Codec) (input : EdgeListInput) : ExceptT Failure m FrozenGraph := do
  let content ← (Host.readFile input.path : m (Except FileFault Bytes))
  let list ← ofExcept .edgeList (EdgeList.load csv input.source content)
  ofCall list.graph

def stats (csv : Csv.Codec) (format : ReportFormat) (input : EdgeListInput) :
    ExceptT Failure m String := do
  let graph ← loadGraph csv input
  let report ← ofExcept .fault (StatsReport.ofGraph graph)
  pure (present format report.text report.outline)

def writeFile (path : String) (content : Bytes) : ExceptT Failure m Unit := do
  let written ← (Host.writeFile path content : m (Except FileFault Unit))
  ofExcept .file written

/-- Makes a directory and writes files in order until one cannot be written. -/
def writeFiles (directory : String) (files : List (String × Bytes)) : ExceptT Failure m Unit := do
  let made ← (Directory.makeAll directory : m (Except FileFault Unit))
  ofExcept .file made
  files.forM fun (path, content) => writeFile path content

def partition (csv : Csv.Codec) (settings : Settings) (format : ReportFormat)
    (request : PartitionRequest) : ExceptT Failure m String := do
  let parts := (request.parts.orElse fun () => settings.parts).getD defaultParts
  let hops := (request.hops.orElse fun () => settings.hops).getD defaultHops
  if parts = 0 then throw .noParts
  let graph ← loadGraph csv request.input
  let halos ← ofCall (Partition.halos graph parts hops)
  if let some directory := request.outDir then
    writeFiles directory (Partition.edgeFiles csv directory halos)
  let reports := Partition.reports request.outDir halos
  pure (present format (String.join (reports.map PartReport.text))
    (.list (reports.map PartReport.outline)))

/-- A network that gives the same answer to every attempt. -/
def answering (listening connecting : Option String) : Network where
  listenFailure _ _ := listening
  connectFailure _ _ := connecting

def serve (settings : Settings) (format : ReportFormat) (request : ServeRequest) : m Outcome := do
  let failed (f : Fault) : Outcome := ⟨"", .failure (.fault f)⟩
  match Endpoint.parse request.address with
  | .error f => pure (failed f)
  | .ok endpoint =>
    match endpoint.resolve with
    | .error f => pure (failed f)
    | .ok address =>
      let failure ← (Host.listen address endpoint.port : m (Option String))
      match (Inbound.bind (answering failure none) request.address).run.run
          (.start settings.links) with
      | (.error f, _) => pure (failed f)
      | (.ok (), receiver) =>
        match ← (Host.callers request.senders : m (Option (List Frame.Reads))) with
        | none => pure ⟨"", .waits⟩
        | some streams =>
          match (streams.foldl Inbound.arrive receiver).accept request.senders with
          | none => pure ⟨"", .waits⟩
          | some (.error f, _) => pure (failed f)
          | some (.ok (), receiver) =>
            let (reports, fault) := Serve.reports receiver
            let output := reports.map fun r => present format r.text r.outline
            pure ⟨String.join output, fault.elim .success fun f => .failure (.fault f)⟩

/-- Sends a message and the end of the stream, and closes the link. The second component is what
became of the connection. -/
def sendAndClose (network : Network) (message : KeyValue) (links : LinkOptions)
    (request : PushRequest) : Except Fault Unit × Outbound :=
  let session : LinkAction Outbound Unit := do
    Outbound.register request.address 0
    Outbound.connect network
    KeyValue.send 0 message
    KeyValue.send 0 (.final request.rank)
  let (result, o) := session.run.run (.start request.sender links)
  (result, o.finalize)

def push (settings : Settings) (request : PushRequest) : ExceptT Failure m String := do
  let message ← ofExcept id (Push.message request)
  let endpoint ← ofExcept .fault (Endpoint.parse request.address)
  let address ← ofExcept .fault endpoint.resolve
  let failure ← (Host.connect address endpoint.port : m (Option String))
  let (result, o) := sendAndClose (answering none failure) message settings.links request
  for connection in o.connections do
    (Host.transmit connection.written : m Unit)
  ofExcept .fault result
  pure ""

/-- The outcome of something that writes only when it succeeds. -/
def settle (action : ExceptT Failure m String) : m Outcome := do
  match ← action.run with
  | .ok output => pure ⟨output, .success⟩
  | .error f => pure ⟨"", .failure f⟩

def invoke (csv : Csv.Codec) (i : Invocation) : m Outcome := do
  match ← (loadSettings i.settings : ExceptT Failure m Settings).run with
  | .error f => pure ⟨"", .failure f⟩
  | .ok settings =>
    match i.request with
    | .stats input => settle (stats csv i.format input)
    | .partition request => settle (partition csv settings i.format request)
    | .serve request => serve settings i.format request
    | .push request => settle (push settings request)

/-- Runs a command line. -/
def run (words : List String) : m Outcome := do
  let environment ← Host.environment CommandLine.settingsVariable
  match CommandLine.parse environment words with
  | .help grammar => pure ⟨grammar.usage environment, .success⟩
  | .version => pure ⟨version, .success⟩
  | .misuse grammar => pure ⟨"", .misuse (grammar.usage environment)⟩
  | .invoke i => invoke .standard i

end Command

end GraphRelay
