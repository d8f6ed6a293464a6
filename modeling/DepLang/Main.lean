import DepLang.CommandLine

/-!
# The program

Runs the command line: writes what it leaves behind, and ends with its code.
-/

def main (arguments : List String) : IO UInt32 := do
  let outcome := DepLang.runCommand arguments
  (← IO.getStdout).putStr outcome.stdout
  (← IO.getStderr).putStr outcome.stderr
  return UInt32.ofNat outcome.code
