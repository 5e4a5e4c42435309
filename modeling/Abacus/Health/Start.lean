import Abacus.Health.Arguments
import Abacus.Health.Config

namespace Abacus.Health

def usage : String := "Usage: calc-health [-b|--bind <addr>]"

inductive Start where
  /-- The process ends at once. -/
  | exit (code : Nat) (out err : String)
  | listen (address : Address)
  deriving DecidableEq, Repr

def complaint (message : String) : String := "calc-health: " ++ message ++ "\n"

def start (argv : List String) (environment : Option (List UInt8)) : Start :=
  match Arguments.parse argv with
  | .error fault => .exit 1 "" (complaint fault.message ++ usage ++ "\n")
  | .ok args =>
    if args.help then .exit 0 (usage ++ "\n") ""
    else match listenAddressOfBytes args.bind environment with
      | .error bad => .exit 1 "" (complaint bad.message)
      | .ok address => .listen address

end Abacus.Health
