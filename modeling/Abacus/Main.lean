import Abacus.CommandLine.Run

namespace Abacus

/-- Writes a diagnostic as far as that is possible. -/
def report (text : String) : IO Unit := do
  try (← IO.getStderr).putStr text catch _ => pure ()

end Abacus

/-- If standard output takes less than all of a run's text, the run ends as one with a failed write. -/
def main (argv : List String) : IO UInt32 := do
  let outcome := Abacus.CommandLine.run argv .unlimited .unlimited
  try
    let stdout ← IO.getStdout
    stdout.putStr outcome.out.accepted
    stdout.flush
    Abacus.report outcome.err.accepted
    return outcome.exit.code.toUInt32
  catch e =>
    Abacus.report (String.join (Abacus.CommandLine.unexpectedError (toString e)) ++ "\n")
    return Abacus.CommandLine.Exit.unexpected.code.toUInt32
