import Abacus.Proofs.Health.Head
import Abacus.Proofs.Text.Words

namespace Abacus.Health

open Text

/-- A request line of three words, with an HTTP version as the last one. -/
structure Asks (request method target version : List Char) : Prop where
  words : (request.splitOnP isBlank).filter (· ≠ []) = [method, target, version]
  version : "HTTP/".toList <+: version

/-- The target in front of its query is the root. -/
def IsRoot (target : List Char) : Prop := target.takeWhile (· != '?') = ['/']

instance (target : List Char) : Decidable (IsRoot target) := inferInstanceAs (Decidable (_ = _))

/-- The reply that a request line asks for. -/
structure Answers (request : List Char) (reply : Reply) : Prop where
  badRequest : reply.status = 400 ↔ ¬∃ method target version, Asks request method target version
  ok : reply.status = 200 ↔
    ∃ method target version, Asks request method target version ∧ IsRoot target ∧ method = "GET".toList
  methodNotAllowed : reply.status = 405 ↔
    ∃ method target version, Asks request method target version ∧ IsRoot target ∧ method ≠ "GET".toList
  notFound : reply.status = 404 ↔
    ∃ method target version, Asks request method target version ∧ ¬IsRoot target
  body : reply.body = if reply.status = 200 then "\x7b\"ok\":true\x7d" else "\x7b\"ok\":false\x7d"

variable {request method target version : List Char} {line bytes rest : List UInt8}

theorem Asks.eq {method' target' version' : List Char} (h : Asks request method target version)
    (h' : Asks request method' target' version') :
    method' = method ∧ target' = target ∧ version' = version := by
  have hwords := h'.words.symm.trans h.words
  simpa using hwords

namespace Reply

end Reply

namespace Ending

end Ending

end Abacus.Health
