import GraphRelay.Command.Host

/-!
# Directories

Making a directory together with those above it that are missing. A directory that is there already
is as good as one just made.
-/
namespace GraphRelay.Directory

variable {m : Type → Type} [Monad m] [Host m]

/-- What an attempt to make a directory comes to: failing does not matter if it is there. -/
def settled (path : String) (made : Except FileFault Unit) : m (Except FileFault Unit) := do
  match made with
  | .ok () => pure (.ok ())
  | .error f => if ← Host.holdsDirectory path then pure (.ok ()) else pure (.error f)

/-- Makes a directory, after those `above` it, the nearest first, as far as they are missing. -/
def makeBelow (path : String) : List String → m (Except FileFault Unit)
  | [] => do settled path (← Host.makeDirectory path)
  | parent :: above => do
    match ← Host.makeDirectory path with
    | .error .missing =>
      match ← makeBelow parent above with
      | .ok () => settled path (← Host.makeDirectory path)
      | .error f => pure (.error f)
    | made => settled path made

/-- Makes a directory and those above it. -/
def makeAll (path : String) : m (Except FileFault Unit) := makeBelow path (pathsAbove path)

end GraphRelay.Directory
