import GraphRelay.Fault
import GraphRelay.Link.Address

/-!
# Endpoints

Where a link is offered: `socket://HOST:PORT`. The host ends at the last colon; brackets around it
are dropped on reading and written around a host that has colons of its own.
-/
namespace GraphRelay

structure Endpoint where
  host : String
  port : UInt16
  deriving DecidableEq, Repr

namespace Endpoint

def scheme : String := "socket://"

/-- The text behind `lead`, when `cs` start with it. -/
def afterLead? (lead cs : List Char) : Option (List Char) :=
  if lead.isPrefixOf cs then some (cs.drop lead.length) else none

/-- What stands before and behind the last `c`. -/
def splitLast? (c : Char) (cs : List Char) : Option (List Char × List Char) :=
  if cs.contains c then
    let back := cs.reverse.takeWhile (· ≠ c)
    some (cs.take (cs.length - back.length - 1), back.reverse)
  else none

/-- Drops the opening brackets in front and the closing brackets behind. -/
def stripBrackets (cs : List Char) : List Char :=
  ((cs.dropWhile (· = '[')).reverse.dropWhile (· = ']')).reverse

def parse (text : String) : Except Fault Endpoint := do
  let some rest := afterLead? scheme.toList text.toList
    | .error (.address text ("must start with " ++ scheme))
  let some (host, port) := splitLast? ':' rest
    | .error (.address text "is missing a port")
  let host := stripBrackets host
  if host.isEmpty then .error (.address text "is missing a host")
  let some port := Decimal.parse? 65536 (String.ofList port)
    | .error (.badPort text)
  .ok ⟨String.ofList host, .ofNat port⟩

def text (e : Endpoint) : String :=
  let host := if e.host.toList.contains ':' then "[" ++ e.host ++ "]" else e.host
  scheme ++ host ++ ":" ++ toString e.port.toNat

/-- The socket address of an endpoint whose host is an address literal, in full or in short. -/
def resolve (e : Endpoint) : Except Fault Address :=
  match (Address.parse? e.host).orElse fun () => Address.parseShort? e.host with
  | some a => .ok a
  | none =>
    .error (.system "resolve"
      "failed to lookup address information: Temporary failure in name resolution")

end Endpoint

end GraphRelay
