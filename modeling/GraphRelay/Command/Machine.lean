import GraphRelay.Command.Run
import Std.Async.TCP

/-!
# The machine at hand

A host that works on the files and the network of the machine it runs on. Whoever calls is heard to
the end of their stream.
-/
namespace GraphRelay

open Std.Net
open Std.Async.TCP

/-- The sockets that a command has opened. -/
structure Sockets where
  listener : Option Socket.Server
  connection : Option Socket.Client

abbrev Machine : Type → Type := StateT Sockets IO

namespace Machine

/-- Some parts of the system report their codes negated. -/
def reason (code : UInt32) (details : String) : String :=
  let number := code.toInt32.toInt.natAbs
  details.capitalize ++ s!" (os error {number})"

/-- The reason in the words of the library that reaches the system. -/
def wording : IO.Error → String
  | .alreadyExists _ code details | .otherError code details | .resourceBusy code details
  | .resourceVanished code details | .unsupportedOperation code details
  | .hardwareFault code details | .unsatisfiedConstraints code details
  | .illegalOperation code details | .protocolError code details | .timeExpired code details
  | .interrupted _ code details | .noFileOrDirectory _ code details
  | .invalidArgument _ code details | .permissionDenied _ code details
  | .resourceExhausted _ code details | .inappropriateType _ code details
  | .noSuchThing _ code details => reason code details
  | .unexpectedEof => "unexpected end of file"
  | .userError text => text

/-- The file faults that have words of their own. -/
def commonFaults : List FileFault :=
  [.missing, .alreadyExists, .notDirectory, .isDirectory, .nameTooLong]

/-- The reasons that have words of their own. -/
def commonReasons : List String :=
  commonFaults.map FileFault.text ++ [Network.unreachable, Network.notAssigned, Network.invalid]

/-- What follows the words of a reason: its number. -/
def number? (text : String) : Option String := (text.splitOn " (os error ").tail.getLast?

/-- The reason that the system gives, known by its number. -/
def describe (e : IO.Error) : String :=
  let text := wording e
  (commonReasons.find? fun r => number? r = number? text).getD text

def fault (e : IO.Error) : FileFault :=
  let text := describe e
  (commonFaults.find? fun f => f.text = text).getD (.other text)

def attempt {α : Type} (action : IO α) : Machine (Except FileFault α) := do
  match ← action.toBaseIO with
  | .ok a => pure (.ok a)
  | .error e => pure (.error (fault e))

/-- Why an action fails, if it does. -/
def failure (action : Machine Unit) : Machine (Option String) :=
  tryCatch (do action; pure none) fun e => pure (some (describe e))

def socketAddress (address : Address) (port : UInt16) : SocketAddress :=
  match address with
  | .v4 a b c d => .v4 ⟨.ofParts a b c d, port⟩
  | .v6 groups => .v6 ⟨⟨.ofFn fun i => groups[i]?.getD 0⟩, port⟩

/-- How many bytes are read at a time. -/
def readSize : UInt64 := 65536

/-- Reads from a socket until the other side closes. -/
def readAll (client : Socket.Client) : IO Frame.Reads := do
  let mut reads := []
  repeat
    let some chunk ← (client.recv? readSize).block | break
    unless chunk.isEmpty do reads := chunk.data.toList :: reads
  return reads.reverse

/-- How many callers may wait to be accepted. -/
def backlogSize : UInt32 := 128

def startListening (address : Address) (port : UInt16) : Machine Unit := do
  let server ← Socket.Server.mk
  server.bind (socketAddress address port)
  server.listen backlogSize
  modify fun s => { s with listener := some server }

def startConnection (address : Address) (port : UInt16) : Machine Unit := do
  let client ← Socket.Client.mk
  (client.connect (socketAddress address port)).block
  modify fun s => { s with connection := some client }

/-- The streams of the next callers; they are accepted first and heard one after the other. -/
def hear (n : Nat) : Machine (Option (List Frame.Reads)) := do
  let some server := (← get).listener | return none
  let clients ← (List.replicate n server).mapM fun server => (server.accept).block
  let streams ← (clients.mapM readAll : IO (List Frame.Reads))
  return some streams

def deliver (bytes : Bytes) : Machine Unit := do
  let some client := (← get).connection | return
  (client.send ⟨bytes.toArray⟩).block
  (client.shutdown).block

/-- Whether a path leads to something, even if it is closed to the user. -/
def isThere (path : String) : Machine Bool := do
  match ← (IO.FS.Handle.mk path .read).toBaseIO with
  | .ok _ | .error (.permissionDenied ..) => return true
  | .error _ => return false

instance : Host Machine where
  environment name := IO.getEnv name
  holds := isThere
  holdsDirectory path := isThere (path ++ "/.")
  readFile path := do
    let content ← attempt (IO.FS.readBinFile path)
    return content.map fun bytes => bytes.data.toList
  makeDirectory path := attempt (IO.FS.createDir path)
  writeFile path content := attempt (IO.FS.writeBinFile path ⟨content.toArray⟩)
  listen address port := failure (startListening address port)
  callers := hear
  connect address port := failure (startConnection address port)
  transmit := deliver

/-- Runs a command line and tells the user about it. -/
def run (arguments : List String) : Machine UInt32 := do
  let outcome ← (Command.run arguments : Machine Outcome)
  IO.print outcome.output
  match outcome.ending with
  | .misuse usage => IO.eprint ("error: these arguments mean nothing\n\n" ++ usage)
  | ending => IO.eprint (ending.complaint.getD "")
  return (outcome.ending.exitCode.getD 1).toUInt32

end Machine

end GraphRelay
