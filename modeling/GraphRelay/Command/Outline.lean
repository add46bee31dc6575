/-!
# Structured reports

Reports as JSON: one member or element a line, two blanks deeper than what holds it.
-/
namespace GraphRelay

inductive Outline where
  | null
  | truth (b : Bool)
  /-- A number by its digits. -/
  | number (digits : String)
  | text (s : String)
  | list (items : List Outline)
  | members (members : List (String × Outline))

namespace Outline

def nat (n : Nat) : Outline := number (toString n)

def int (i : Int) : Outline := number (toString i)

def hexDigits (n : Nat) : List Char := [(n / 16).digitChar, (n % 16).digitChar]

/-- How a character is written inside quotes: quotes, backslashes and control characters have
escapes. -/
def escape (c : Char) : List Char :=
  if c = '"' then ['\\', '"']
  else if c = '\\' then ['\\', '\\']
  else if c = '\n' then ['\\', 'n']
  else if c = '\r' then ['\\', 'r']
  else if c = '\t' then ['\\', 't']
  else if c = '\x08' then ['\\', 'b']
  else if c = '\x0c' then ['\\', 'f']
  else if c < ' ' then ['\\', 'u', '0', '0'] ++ hexDigits c.toNat
  else [c]

def quoted (s : String) : String := "\"" ++ String.ofList (s.toList.flatMap escape) ++ "\""

def indent (depth : Nat) : String := String.ofList (List.replicate (2 * depth) ' ')

/-- Lines between brackets, each one level deeper than `depth`; nothing goes on one line. -/
def block (left right : String) (depth : Nat) (lines : List String) : String :=
  if lines.isEmpty then left ++ right
  else
    left ++ "\n" ++ ",\n".intercalate (lines.map (indent (depth + 1) ++ ·)) ++ "\n" ++ indent depth
      ++ right

mutual

def render (depth : Nat) : Outline → String
  | null => "null"
  | truth b => toString b
  | number digits => digits
  | text s => quoted s
  | list items => block "[" "]" depth (renderItems (depth + 1) items)
  | members ms => block "\x7b" "\x7d" depth (renderMembers (depth + 1) ms)

def renderItems (depth : Nat) : List Outline → List String
  | [] => []
  | item :: rest => item.render depth :: renderItems depth rest

def renderMembers (depth : Nat) : List (String × Outline) → List String
  | [] => []
  | (name, item) :: rest => (quoted name ++ ": " ++ item.render depth) :: renderMembers depth rest

end

end Outline

end GraphRelay
