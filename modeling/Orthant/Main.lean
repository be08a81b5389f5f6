import Orthant.Sweep

/-! # Command line

Runs the sweep over the members with four variables of degree 40. No engine is attached, so that
the first check reports that it is missing.
-/

namespace Orthant

def absentEngine : Engine where
  load _ := none
  system _ := none
  solve _ := .ok []
  track _ := .ok []
  certify _ := .ok []

def standardSweep : Sweep := ⟨4, 40, false, absentEngine, .steady (.int 0)⟩

def showRecord (r : Record) : IO Unit :=
  if r.level = .debug then return ()
  else IO.eprintln (r.level.name ++ " " ++ r.source ++ ": " ++ r.text)

end Orthant

open Orthant

def main (args : List String) : IO UInt32 := do
  let (outcome, world) := (standardSweep.run args).runFrom ⟨"", ⟨false, []⟩, 0⟩
  IO.print world.memory.text
  world.log.forM showRecord
  match outcome with
  | .ok _ => return 0
  | .error e =>
    IO.eprintln (e.message.getD "invalid scale")
    return 1
