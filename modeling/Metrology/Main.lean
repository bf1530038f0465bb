import Metrology.Listing.CommandLine

/-!
# The listing program

Prints the outcome of its command line and leaves with its exit code.
-/

open Metrology

def main (arguments : List String) : IO UInt32 := do
  let outcome := ListingOutcome.ofArguments arguments
  (← IO.getStdout).putStr outcome.output
  (← IO.getStderr).putStr outcome.complaint
  return outcome.exitCode.toUInt32
