import Midend.Bench

/-! # The program -/

open Midend

/-- Runs the command line and prints what it leaves behind. -/
def main (args : List String) : IO UInt32 := do
  let start ← IO.monoMsNow
  let outcome := Bench.run args
  (← IO.getStdout).putStr outcome.output
  (← IO.getStderr).putStr outcome.errors
  if outcome.timed then
    let elapsed := (← IO.monoMsNow) - start
    (← IO.getStderr).putStr s!"Execution Time Statistics:\n  total:  {elapsed} ms\n"
  return UInt32.ofNat outcome.code
