import GraphRelay.EdgeList

/-!
# Failures of commands

Why a command ends without doing all that it was asked for.
-/
namespace GraphRelay

inductive Failure where
  | settingsUnreadable (path : String) (fault : FileFault)
  | settingsSyntax
  | noParts
  | edgeList (fault : EdgeListFault)
  | file (fault : FileFault)
  /-- A fault of graphs or of links. -/
  | fault (fault : Fault)
  | badItem (option item : String)
  | unevenValues (values ids : Nat)
  /-- A number outgrew its machine word, which ends the program on the spot. -/
  | overflow
  deriving DecidableEq, Repr

namespace Failure

def text : Failure → String
  | settingsUnreadable path f => "failed to read CLI config " ++ path ++ ": " ++ f.text
  | settingsSyntax => "failed to parse CLI config"
  | noParts => "--parts must be at least 1"
  | edgeList f => f.text
  | file f => f.text
  | fault f => f.message
  | badItem option item => option ++ ": cannot parse '" ++ item ++ "'"
  | unevenValues values ids => s!"{values} values cannot be split evenly across {ids} ids"
  | overflow => "arithmetic overflow"

/-- The complaint that a user reads. What is wrong with a settings document is left open, and so is
the end of that line. -/
def complaint (f : Failure) : String :=
  match f with
  | settingsSyntax => "error: " ++ f.text
  | _ => "error: " ++ f.text ++ "\n"

end Failure

end GraphRelay
