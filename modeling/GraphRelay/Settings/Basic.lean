import GraphRelay.Link.Options
import GraphRelay.Settings.Toml.Grammar

/-!
# Settings

What a settings document can set: the options of links, and how graphs are partitioned when the
command does not say.
-/
namespace GraphRelay

structure Settings where
  links : LinkOptions
  /-- How many hops a part's surroundings reach. -/
  hops : Option Nat
  parts : Option Nat
  deriving DecidableEq, Repr

namespace Settings

def default : Settings := ⟨.default, none, none⟩

/-- The number in a field that may be absent. -/
def optionalCount : Option Datum → Option (Option Nat)
  | none => some none
  | some d => d.toCount?.map some

def linksOf : Option Datum → Option LinkOptions
  | none => some .default
  | some (.list items) => LinkOptions.ofDatum? (.list (items.take 3))
  | some d => LinkOptions.ofDatum? d

/-- Hops and parts by their names, or from a list of both. -/
def partitionOf : Option Datum → Option (Option Nat × Option Nat)
  | none => some (none, none)
  | some (.list (hops :: parts :: _)) => do
    let hops ← optionalCount (some hops)
    let parts ← optionalCount (some parts)
    pure (hops, parts)
  | some d => do
    let entries ← d.entries?
    let hops ← optionalCount (entries.lookup "num_hops")
    let parts ← optionalCount (entries.lookup "num_parts")
    pure (hops, parts)

def ofDatum? : Datum → Option Settings
  | .table entries => do
    let links ← linksOf (entries.lookup "comm")
    let (hops, parts) ← partitionOf (entries.lookup "partition")
    pure ⟨links, hops, parts⟩
  | _ => none

/-- The settings that a document spells out; what it does not name is left unset. -/
def parse? (text : String) : Option Settings := Toml.parse? text >>= ofDatum?

end Settings

end GraphRelay
