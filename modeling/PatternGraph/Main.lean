import PatternGraph.CommandLine

/-!
# The program

Prints the report for its arguments and ends with its exit code.
-/

/-- Prints what the arguments ask for. -/
def main (arguments : List String) : IO UInt32 := do
  let report := PatternGraph.Report.ofArguments arguments
  IO.print report.output
  IO.eprint report.errors
  return report.exit.toUInt32
