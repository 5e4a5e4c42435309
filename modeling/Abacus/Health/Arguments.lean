import Abacus.Text.Lead

namespace Abacus.Health

structure Arguments where
  bind : Option String := none
  help : Bool := false
  deriving DecidableEq, Repr

namespace Arguments

inductive Fault where
  | missingAddress (option : String)
  | unexpected (argument : String)
  deriving DecidableEq, Repr

def Fault.message : Fault → String
  | missingAddress option => option ++ " requires an address argument"
  | unexpected argument => "unexpected argument: " ++ argument

/-- The address in an argument that holds option and address together. Behind `-b` alone an empty
one does not count. -/
def attached? (arg : String) : Option String :=
  match Text.after? "--bind=".toList arg.toList with
  | some address => some (.ofList address)
  | none =>
    match Text.after? "-b".toList arg.toList with
    | some (c :: address) => some (.ofList (c :: address))
    | _ => none

/-- Of several addresses the last one counts. -/
def read (args : Arguments) : List String → Except Fault Arguments
  | [] => .ok args
  | arg :: rest =>
    if arg = "-h" ∨ arg = "--help" then read { args with help := true } rest
    else if arg = "-b" ∨ arg = "--bind" then
      match rest with
      | address :: rest => read { args with bind := some address } rest
      | [] => .error (.missingAddress arg)
    else match attached? arg with
      | some address => read { args with bind := some address } rest
      | none => .error (.unexpected arg)

def parse (argv : List String) : Except Fault Arguments := read {} argv

end Arguments

end Abacus.Health
