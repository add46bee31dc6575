import GraphRelay.Files
import GraphRelay.Link.Frame
import GraphRelay.Link.Network

/-!
# Hosts

What commands ask of the machine they run on, and a machine that is all data: a tree of files, a
network, and the streams of those who will connect.
-/
namespace GraphRelay

/-- The settings document that is used when none is named: in the directory that is set apart for
settings, if its path starts at the root, or else below the home directory. -/
def usualSettings (settingsDirectory home : Option String) : Option String :=
  let apart := settingsDirectory.filter isRooted
  let homely := (home.filter (!·.isEmpty)).map (pathBelow · ".config")
  let directory := apart.orElse fun () => homely
  directory.map fun d => pathBelow (pathBelow d "strata") "config.toml"

class Host (m : Type → Type) where
  /-- The value of a variable of the environment. -/
  environment : String → m (Option String)
  /-- Whether a file or directory stands at a path. -/
  holds : String → m Bool
  holdsDirectory : String → m Bool
  readFile : String → m (Except FileFault Bytes)
  /-- Makes a directory in one that exists. -/
  makeDirectory : String → m (Except FileFault Unit)
  writeFile : String → Bytes → m (Except FileFault Unit)
  /-- Starts to listen, or says why it cannot. -/
  listen : Address → UInt16 → m (Option String)
  /-- The streams of the next callers, so many of them; nothing if fewer ever call. -/
  callers : Nat → m (Option (List Frame.Reads))
  /-- Connects, or says why it cannot. -/
  connect : Address → UInt16 → m (Option String)
  /-- Writes the whole of a stream to whom it has connected. -/
  transmit : Bytes → m Unit

structure MemoryHost where
  /-- The variables of the environment. -/
  environment : List (String × String)
  files : FileTree
  network : Network
  /-- The streams of those who will connect, in that order. -/
  waiting : List Frame.Reads
  /-- The streams written so far. -/
  transmitted : List Bytes

namespace MemoryHost

def updateFiles (change : FileTree → Except FileFault FileTree) :
    StateM MemoryHost (Except FileFault Unit) := do
  let w ← get
  match change w.files with
  | .ok files =>
    set { w with files := files }
    pure (.ok ())
  | .error f => pure (.error f)

instance : Host (StateM MemoryHost) where
  environment name := do pure ((← get).environment.lookup name)
  holds path := do pure ((← get).files.holds path)
  holdsDirectory path := do pure ((← get).files.holdsDirectory path)
  readFile path := do pure ((← get).files.read path)
  makeDirectory path := updateFiles (·.makeDirectory path)
  writeFile path content := updateFiles (·.write path content)
  listen address port := do pure ((← get).network.listenFailure address port)
  callers n := do
    let w ← get
    if w.waiting.length < n then pure none
    else
      set { w with waiting := w.waiting.drop n }
      pure (some (w.waiting.take n))
  connect address port := do pure ((← get).network.connectFailure address port)
  transmit bytes := modify fun w => { w with transmitted := w.transmitted ++ [bytes] }

end MemoryHost

end GraphRelay
