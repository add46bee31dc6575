import GraphRelay.Fault

/-!
# Directions

Which endpoint the rows of an adjacency are indexed by.
-/
namespace GraphRelay

inductive Direction where
  /-- A row belongs to a destination and lists the sources of its in-edges. -/
  | incoming
  /-- A row belongs to a source and lists the destinations of its out-edges. -/
  | outgoing
  deriving DecidableEq, Repr

namespace Direction

def flip : Direction → Direction
  | incoming => outgoing
  | outgoing => incoming

@[simp] theorem flip_flip (d : Direction) : d.flip.flip = d := by cases d <;> rfl

def label : Direction → String
  | incoming => "in"
  | outgoing => "out"

/-- The capitalised form used where a graph describes itself. -/
def caption : Direction → String
  | incoming => "In"
  | outgoing => "Out"

def parse (text : String) : Except Fault Direction :=
  if text = "in" then .ok incoming
  else if text = "out" then .ok outgoing
  else .error (.unknownDirection text)

end Direction

/-- The layouts an adjacency can be handed out in. -/
inductive Layout where
  | rows
  | coordinates
  deriving DecidableEq, Repr

namespace Layout

def caption : Layout → String
  | rows => "Csr"
  | coordinates => "Coo"

def parse (text : String) : Except Fault Layout :=
  if text = "csr" then .ok rows
  else if text = "coo" then .ok coordinates
  else .error (.unknownLayout text)

end Layout

end GraphRelay
