import CallByNeed.Demo.Programs

/-! # The command

Runs the demonstration on the arguments of the command line.
-/

set_option autoImplicit false

open CallByNeed.Demo

def main (arguments : List String) : IO UInt32 := do
  let output ← IO.getStdout
  let result := command arguments (← output.isTty)
  output.putStr result.output
  output.flush
  if result.exitCode != 0 then
    IO.eprintln "error: bad options, try --help"
  return result.exitCode.toUInt32
