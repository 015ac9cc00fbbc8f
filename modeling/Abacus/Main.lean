/-
  Abacus.Main — the program: the command of `Abacus.CommandLine` at a terminal.
-/

import Abacus.CommandLine

namespace Abacus

/-- A terminal, with the switch for the lines of the evaluation. -/
abbrev Terminal := StateT Bool IO

instance : Console Terminal where
  printAll texts := texts.forM fun text => IO.println text
  now := do return (← IO.monoNanosNow : Nat) / 1000000
  tracing := get
  setTracing := set

end Abacus

/-- The calls that a run of the program has room for. -/
def Abacus.Terminal.limit : Abacus.Limit := some 990

def main (arguments : List String) : IO UInt32 := do
  match ← (Abacus.CommandLine.command Abacus.Terminal.limit arguments : Abacus.Terminal _).run' false with
  | .ok code => return code.toUInt32
  | .error f => throw (IO.userError f.message)
