import GraphReduction.Invocation

namespace GraphReduction

/-- More iterations than any run can take. -/
def mainFuel : Nat := Nat.pow 2 62

/-- The workers of a pool take turns, so one is enough unless more are asked for. -/
def mainDefaults : RuntimeOptions := .default 1

def ProgramEnding.code : ProgramEnding → UInt32
  | .exited code => code
  | .aborted => 134

end GraphReduction

open GraphReduction in
def main (args : List String) : IO UInt32 := do
  let environment ← IO.getEnv "GRAFT_RTS"
  match Invocation.answer mainFuel .common mainDefaults environment args with
  | none => return 1
  | some a =>
    IO.print a.stdout
    IO.eprint a.stderr
    return a.ending.code
