import Abacus.Address.Reader
import Abacus.Address.Writer
import Abacus.Text.Quoted
import Abacus.Text.Utf8

namespace Abacus.Health

inductive Origin where
  | flag
  | environment
  | builtIn
  deriving DecidableEq, Repr

def addressVariable : String := "CALC_HEALTH_ADDR"

def defaultAddress : String := "127.0.0.1:8000"

def Origin.text : Origin → String
  | flag => "--bind"
  | environment => addressVariable
  | builtIn => "built-in default"

/-- A text that spells no address, as it was given. -/
structure BadAddress where
  value : String
  origin : Origin
  deriving DecidableEq, Repr

def BadAddress.reason : String := "invalid socket address syntax"

def BadAddress.message (bad : BadAddress) : String :=
  "invalid bind address " ++ Text.quoteString bad.value ++ " (from " ++ bad.origin.text ++ "): " ++
    reason

def isBlankText (text : String) : Bool := text.toList.all Text.isBlank

/-- The text that decides, even if it spells no address. A blank variable counts as unset. -/
def source (flag environment : Option String) : String × Origin :=
  match flag, environment with
  | some text, _ => (text, .flag)
  | none, some text =>
    if isBlankText text then (defaultAddress, .builtIn) else (text, .environment)
  | none, none => (defaultAddress, .builtIn)

/-- The address to listen on. White space around it does not count. -/
def listenAddress (flag environment : Option String) : Except BadAddress Address :=
  let (text, origin) := source flag environment
  match Address.ofText? (Text.trim text.toList) with
  | some address => .ok address
  | none => .error ⟨text, origin⟩

/-- A variable whose bytes are not UTF-8 counts as unset. -/
def listenAddressOfBytes (flag : Option String) (environment : Option (List UInt8)) :
    Except BadAddress Address :=
  listenAddress flag ((environment.bind Text.Utf8.decode?).map .ofList)

end Abacus.Health
