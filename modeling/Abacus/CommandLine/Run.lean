import Abacus.Calculation
import Abacus.CommandLine.Arguments
import Abacus.CommandLine.Sink

namespace Abacus.CommandLine

def usage : String := "Usage: calc <expression>"

def helpText : String := "\n".intercalate [
  "Simple CLI calculator",
  "",
  "Usage: calc [-v|--verbose] [-h|--help] [--] <expression>...",
  "",
  "Arguments are joined with spaces and evaluated as one expression.",
  "Supported: numbers, parentheses, + - * / and ** // %.",
  "",
  "Options:",
  "  -v, --verbose  Show parsed expression",
  "  -h, --help     Show this help and exit"]

inductive Exit where
  | success
  | userError
  | unexpected
  deriving DecidableEq, Repr

def Exit.code : Exit → Nat
  | success => 0
  | userError => 1
  | unexpected => 2

/-- Why a run fails. A value out of range is no mistake in the expression. -/
inductive Trouble where
  | calculation (failure : Failure)
  | outOfRange (fault : Fault)
  | write (refusal : String)
  deriving DecidableEq, Repr

namespace Trouble

def ofFailure : Failure → Trouble
  | .evaluation .overflow => outOfRange .overflow
  | .evaluation .intTooLarge => outOfRange .intTooLarge
  | failure => calculation failure

def message : Trouble → String
  | calculation failure => failure.message
  | outOfRange fault => fault.message
  | write refusal => refusal

def exit : Trouble → Exit
  | calculation _ => .userError
  | outOfRange _ | write _ => .unexpected

end Trouble

/-- What the user is told of a failure. The first two kinds are told without particulars. -/
def notice : Failure → String
  | .invalidCharacter _ => "Error: Expression contains invalid characters."
  | .unbalancedParentheses .. => "Error: Unbalanced parentheses in expression."
  | failure => "Error: " ++ failure.message

/-- The state of the output and what happened while an expression was worked out. -/
structure Execution where
  out : Sink
  events : List Event
  outcome : Except Trouble Unit

/-- Cleans an expression, shows it if asked to, and shows its value. -/
def perform (args : Arguments) (out : Sink) : Execution :=
  let cleaned := cleaning args.expression
  match cleaned.outcome with
  | .error failure => ⟨out, cleaned.events, .error (.ofFailure failure)⟩
  | .ok text =>
    match if args.verbose then out.writeLine ["Parsed: ", text] else (out, true) with
    | (shown, false) => ⟨shown, cleaned.events, .error (.write shown.refusal)⟩
    | (shown, true) =>
      let evaluated := computing text
      let events := cleaned.events ++ evaluated.events
      match evaluated.outcome with
      | .error failure => ⟨shown, events, .error (.ofFailure failure)⟩
      | .ok value =>
        match shown.writeLine ["Result: ", value.resultText] with
        | (done, false) => ⟨done, events, .error (.write done.refusal)⟩
        | (done, true) => ⟨done, events, .ok ()⟩

structure Outcome where
  exit : Exit
  out : Sink
  err : Sink
  events : List Event

/-- Ends a run with a line on the error stream. If that write fails, nowhere is left to report it. -/
def complain (exit : Exit) (out err : Sink) (events : List Event) (pieces : List String) :
    Outcome :=
  ⟨exit, out, (err.writeLine pieces).1, events⟩

def unexpectedError (reason : String) : List String := ["Unexpected error: ", reason]

def run (argv : List String) (out err : Sink) : Outcome :=
  match Arguments.parse argv with
  | .error fault =>
    complain .userError out err [⟨"bad command line", [("error", .text fault.message)]⟩] [usage]
  | .ok args =>
    if args.help then
      match out.writeLine [helpText] with
      | (shown, true) => ⟨.success, shown, err, []⟩
      | (shown, false) => complain .unexpected shown err [] (unexpectedError shown.refusal)
    else
      let execution := perform args out
      match execution.outcome with
      | .ok () => ⟨.success, execution.out, err, execution.events⟩
      | .error (.calculation failure) =>
        complain .userError execution.out err
          (execution.events ++ [⟨"calculation failed", [("error", .text failure.message)]⟩])
          [notice failure]
      | .error trouble =>
        complain trouble.exit execution.out err execution.events (unexpectedError trouble.message)

/-- A run whose arguments are bytes. What is not UTF-8 in them is replaced, so that it is never taken for
an option. -/
def runOfBytes (argv : List (List UInt8)) (out err : Sink) : Outcome :=
  run (argv.map Text.Utf8.decodeLossyString) out err

end Abacus.CommandLine
