import Abacus.Text.Blank
import Abacus.Text.Lead

namespace Abacus.Health

structure Reply where
  status : Nat
  reason : String
  body : String
  deriving DecidableEq, Repr

namespace Reply

def ofVerdict (status : Nat) (reason : String) (ok : Bool) : Reply :=
  ⟨status, reason, if ok then "\x7b\"ok\":true\x7d" else "\x7b\"ok\":false\x7d"⟩

def ok : Reply := ofVerdict 200 "OK" true

def badRequest : Reply := ofVerdict 400 "Bad Request" false

def notFound : Reply := ofVerdict 404 "Not Found" false

def methodNotAllowed : Reply := ofVerdict 405 "Method Not Allowed" false

/-- The target of a request without its query. -/
def path (target : List Char) : List Char := target.takeWhile (· != '?')

/-- A request line has three words: method, target and version. -/
def ofRequestLine (line : List Char) : Reply :=
  match Text.words line with
  | [method, target, version] =>
    if (Text.after? "HTTP/".toList version).isNone then badRequest
    else if path target ≠ ['/'] then notFound
    else if method = "GET".toList then ok
    else methodNotAllowed
  | _ => badRequest

/-- The length of the body is counted in bytes. -/
def encode (reply : Reply) : String :=
  "HTTP/1.1 " ++ reply.status.repr ++ " " ++ reply.reason ++ "\r\n" ++
    "Content-Type: application/json\r\n" ++
    "Content-Length: " ++ reply.body.utf8ByteSize.repr ++ "\r\n" ++
    "Connection: close\r\n" ++
    "\r\n" ++
    reply.body

end Reply

end Abacus.Health
