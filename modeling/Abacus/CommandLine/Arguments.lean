namespace Abacus.CommandLine

structure Arguments where
  /-- Show the cleaned expression before its value. -/
  verbose : Bool := false
  help : Bool := false
  /-- The pieces of the expression, in order. -/
  tokens : List String := []
  deriving DecidableEq, Repr

namespace Arguments

/-- The expression: its pieces with a space between each two. -/
def expression (args : Arguments) : String := " ".intercalate args.tokens

inductive Fault where
  | noExpression
  deriving DecidableEq, Repr

def Fault.message : Fault → String
  | noExpression => "no expression given"

/-- Takes options off the front. A `--` ends them and is dropped. The first argument that is no option
starts the expression, so that a negative number needs no `--` in front. -/
def readOptions (args : Arguments) : List String → Arguments
  | [] => args
  | arg :: rest =>
    if arg = "-v" ∨ arg = "--verbose" then readOptions { args with verbose := true } rest
    else if arg = "-h" ∨ arg = "--help" then readOptions { args with help := true } rest
    else if arg = "--" then { args with tokens := rest }
    else { args with tokens := arg :: rest }

/-- An expression may be missing only where help is asked for. -/
def parse (argv : List String) : Except Fault Arguments :=
  let args := readOptions {} argv
  if args.tokens.isEmpty && !args.help then .error .noExpression else .ok args

end Arguments

end Abacus.CommandLine
