import GraphRelay.Command.Machine

/-!
# The program

Runs the command line on the machine at hand.
-/

def main (arguments : List String) : IO UInt32 :=
  (GraphRelay.Machine.run arguments).run' ⟨none, none⟩
