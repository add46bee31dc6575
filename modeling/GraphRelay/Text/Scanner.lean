/-!
# Scanners

A scanner takes something from the front of a text or does not match. A scanner that does not match
takes nothing, so that another one can be tried in its place.
-/
namespace GraphRelay

abbrev Scanner (α : Type) := StateT (List Char) Option α

namespace Scanner

variable {α β : Type}

def satisfy (p : Char → Bool) : Scanner Char := fun cs =>
  match cs with
  | c :: rest => if p c then some (c, rest) else none
  | [] => none

def char (c : Char) : Scanner Unit := do
  let _ ← satisfy (· = c)

def oneOf (choices : List Char) : Scanner Char := satisfy choices.contains

/-- The text `s` itself. -/
def literal (s : String) : Scanner Unit := fun cs =>
  let expected := s.toList
  if expected.isPrefixOf cs then some ((), cs.drop expected.length) else none

def takeWhile (p : Char → Bool) : Scanner (List Char) := fun cs =>
  some (cs.takeWhile p, cs.dropWhile p)

/-- Matches at least one character. -/
def takeWhile1 (p : Char → Bool) : Scanner (List Char) := do
  let c ← satisfy p
  let rest ← takeWhile p
  pure (c :: rest)

/-- At most `n` matches in a row. -/
def upTo : Nat → Scanner α → Scanner (List α)
  | 0, _ => pure []
  | n + 1, s => fun cs =>
    match s cs with
    | none => some ([], cs)
    | some (a, rest) => (upTo n s rest).map fun (more, rest) => (a :: more, rest)

/-- As many matches as there are; each takes at least a character. -/
def many (s : Scanner α) : Scanner (List α) := fun cs => upTo cs.length s cs

def exactly : Nat → Scanner α → Scanner (List α)
  | 0, _ => pure []
  | n + 1, s => do
    let a ← s
    let more ← exactly n s
    pure (a :: more)

/-- One or more matches with separators between them. -/
def separated (s : Scanner α) (separator : Scanner β) : Scanner (List α) := do
  let first ← s
  let more ← many (separator *> s)
  pure (first :: more)

/-- The value of a match, if it passes a test. -/
def guarded (s : Scanner α) (test : α → Bool) : Scanner α := do
  let a ← s
  if test a then pure a else failure

/-- What `s` makes of the whole of a text. -/
def runAll? (s : Scanner α) (text : String) : Option α :=
  match s text.toList with
  | some (a, []) => some a
  | _ => none

end Scanner

end GraphRelay
