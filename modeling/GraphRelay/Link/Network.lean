import GraphRelay.Link.Address

/-!
# Networks

What the network does with attempts to listen and to connect: it lets them succeed or names the
reason why they fail.
-/
namespace GraphRelay

structure Network where
  /-- Why nobody can listen at an address, if so. -/
  listenFailure : Address → UInt16 → Option String
  /-- Why nobody can connect to an address, if so. -/
  connectFailure : Address → UInt16 → Option String
  /-- What fails on a connection after it is made and before payloads can be written, and why. -/
  setupFailure : Address → UInt16 → Option (String × String) := fun _ _ => none

namespace Network

/-- How links over sockets are called. -/
def transport : String := "socket"

/-- A network in which every attempt succeeds. -/
def reachable : Network where
  listenFailure _ _ := none
  connectFailure _ _ := none

def unreachable : String := "Network is unreachable (os error 101)"

def notAssigned : String := "Cannot assign requested address (os error 99)"

def invalid : String := "Invalid argument (os error 22)"

/-- How far an address of version 6 reaches. -/
inductive Reach where
  /-- An address of version 4 inside one of version 6. -/
  | embedded
  /-- The address that stands for all of a host's own. -/
  | unspecified
  /-- Only as far as one link, which the address does not name. -/
  | link
  /-- To a group of hosts. -/
  | group
  | host
  deriving DecidableEq, Repr

def reach (groups : List UInt16) : Reach :=
  let first := (groups.head?.getD 0).toNat
  if groups.take 6 = [0, 0, 0, 0, 0, 0xffff] then .embedded
  else if groups.all (· = 0) then .unspecified
  else if 0xfe80 ≤ first && first < 0xfec0 then .link
  else if 0xff00 ≤ first then .group
  else .host

/-- A host without any route: nobody can be reached. Without routes no address of version 4 is known
to belong to somebody else, so it can listen on all of them. -/
def isolated : Network where
  listenFailure a _ :=
    match a with
    | .v4 .. => none
    | .v6 groups =>
      match reach groups with
      | .embedded | .unspecified => none
      | .link | .group => some invalid
      | .host => some notAssigned
  connectFailure a _ :=
    match a with
    | .v4 .. => some unreachable
    | .v6 groups =>
      match reach groups with
      | .embedded | .group => some unreachable
      | .link => some invalid
      | .unspecified | .host => some notAssigned

end Network

end GraphRelay
