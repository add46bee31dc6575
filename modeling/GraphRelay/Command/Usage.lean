import GraphRelay.Command.Arguments

/-!
# Usages

What a user is told about a part of a command line: its aim, how it is written, and a line for each
word, value and option that can stand on it. Where the lines would get too long, the explanations of
options go below them.
-/
namespace GraphRelay.CommandLine

namespace OptionRule

/-- An option and what stands for its value. -/
def label (o : OptionRule) : String := "--" ++ o.name ++ " <" ++ o.value ++ ">"

/-- The explanation of an option, with what is known about its value; `environment` is the value of
its variable. -/
def explanation (o : OptionRule) (environment : Option String) : String :=
  let fallback := o.environmentName.map fun n => "[env: " ++ n ++ "=" ++ environment.getD "" ++ "]"
  let presets := o.preset.map fun value => "[default: " ++ value ++ "]"
  let choices :=
    if o.choices.isEmpty then none
    else some ("[possible values: " ++ ", ".intercalate o.choices ++ "]")
  " ".intercalate (o.about :: [fallback, presets, choices].filterMap id)

end OptionRule

/-- A line of a list: what is explained, and its explanation. -/
structure UsageLine where
  label : String
  text : String
  deriving DecidableEq, Repr

namespace UsageLine

def widest (lines : List UsageLine) : Nat := (lines.map fun l => l.label.length).foldl max 0

def lineWidth : Nat := 100

/-- Whether some explanation does not fit beside labels that take much of the line. -/
def isCrowded (lines : List UsageLine) : Bool :=
  let taken := widest lines + 12
  2 * lineWidth < 5 * taken && lines.any fun l => lineWidth - taken < l.text.length

def beside (width : Nat) (l : UsageLine) : String :=
  let gap := List.replicate (width + 2 - l.label.length) ' '
  "  " ++ l.label ++ String.ofList gap ++ l.text ++ "\n"

def below (l : UsageLine) : String := "  " ++ l.label ++ "\n          " ++ l.text ++ "\n"

/-- A list under its heading; an empty one is left out. -/
def list (heading : String) (lines : List UsageLine) : String :=
  if lines.isEmpty then ""
  else
    let shown := if isCrowded lines then lines.map below else lines.map (beside (widest lines))
    "\n" ++ heading ++ ":\n" ++ String.join shown

end UsageLine

namespace Grammar

/-- The options, by their places among the own and among the shared ones, then by their names. -/
def orderedOptions (g : Grammar) : List OptionRule :=
  let placed := g.options.zipIdx ++ g.shared.zipIdx
  let before (a b : OptionRule × Nat) : Bool := a.2 < b.2 || (a.2 = b.2 && a.1.name ≤ b.1.name)
  (placed.mergeSort before).map Prod.fst

def optionLines (g : Grammar) (environment : Option String) : List UsageLine :=
  let named := g.orderedOptions.map fun o => ⟨"    " ++ o.label, o.explanation environment⟩
  let version := if g.hasVersion then [⟨"-V, --version", "Print version"⟩] else []
  named ++ ⟨"-h, --help", "Print help"⟩ :: version

/-- How a part is written. -/
def pattern (g : Grammar) : String :=
  let needed := (g.options.filter (·.needed)).map OptionRule.label
  let places := g.places.map fun (name, _) => "<" ++ name ++ ">"
  let next := if g.commands.isEmpty then [] else ["<COMMAND>"]
  " ".intercalate (g.title :: "[OPTIONS]" :: needed ++ places ++ next)

def usage (g : Grammar) (environment : Option String) : String :=
  let words := g.commands.map fun (word, about) => ⟨word, about⟩
  let places := g.places.map fun (name, about) => ⟨"<" ++ name ++ ">", about⟩
  g.about ++ "\n\nUsage: " ++ g.pattern ++ "\n" ++ UsageLine.list "Commands" words
    ++ UsageLine.list "Arguments" places ++ UsageLine.list "Options" (g.optionLines environment)

end Grammar

end GraphRelay.CommandLine
