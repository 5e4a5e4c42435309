import Abacus.Expr.Basic
import Abacus.Token.Lexeme

namespace Abacus

/-- A part that was read, and the lexemes after it, of which there are fewer than `bound`. -/
structure Reading (α : Type) (bound : Nat) where
  value : α
  rest : List Lexeme
  short : rest.length < bound

namespace Reading

variable {α β : Type} {m n : Nat}

def map (f : α → β) (r : Reading α n) : Reading β n := ⟨f r.value, r.rest, r.short⟩

def widen (r : Reading α m) (h : m ≤ n) : Reading α n :=
  ⟨r.value, r.rest, Nat.lt_of_lt_of_le r.short h⟩

theorem length_after_lt (r : Reading α n) {lexeme : Lexeme} {after : List Lexeme}
    (h : r.rest = lexeme :: after) : after.length < n := by
  have hshort := r.short
  rw [h] at hshort
  exact Nat.lt_of_succ_lt hshort

end Reading

namespace Lexeme

/-- The token to read next; past the last lexeme that is `eof` as well. -/
def next : List Lexeme → Token
  | [] => .eof
  | lexeme :: _ => lexeme.token

def nextOffset : List Lexeme → Nat
  | [] => 0
  | lexeme :: _ => lexeme.offset

def unexpected (ts : List Lexeme) : Fault :=
  match next ts with
  | .eof => .malformed .unexpectedEnd (nextOffset ts)
  | token => .malformed (.unexpectedToken token) (nextOffset ts)

def tooDeep (ts : List Lexeme) : Fault := .malformed .nestedTooDeeply (nextOffset ts)

/-- Reads a closing bracket after a part. -/
def close {α : Type} {n : Nat} (bracket : Bracket) (r : Reading α n) :
    Except Fault (Reading α n) :=
  match h : r.rest with
  | lexeme :: rest =>
    if lexeme.token = .closing bracket then
      .ok ⟨r.value, rest, r.length_after_lt h⟩
    else .error (unexpected (lexeme :: rest))
  | [] => .error (unexpected [])

end Lexeme

/-- How high a tree may grow, and how many descents may be under way while it is read. -/
def Expr.maxDepth : Nat := 400

/-- Lets a new node pass if its tree is not too high; if it is, the fault lies at the next token. -/
def Expr.grow {n : Nat} (r : Reading Expr n) : Except Fault (Reading Expr n) :=
  if r.value.height ≤ maxDepth then .ok r else .error (Lexeme.tooDeep r.rest)

end Abacus
