import Abacus.Alphabet
import Abacus.Expr.Arithmetic
import Abacus.Expr.Descent
import Abacus.Expr.Value

namespace Abacus

/-- Computing, with what it reports. -/
def computing (source : String) : Traced Failure Binary64 := do
  let tree ← Traced.silent ((Expr.parse source).mapError .evaluation)
  if tree.isArithmetic then
    let value ← Traced.silent tree.value
    Traced.emit ⟨"evaluated expression", [("src", .text source), ("value", .number value)]⟩
    return value
  else
    Traced.refuse ⟨"rejecting expression with non-arithmetic structure", [("src", .text source)]⟩
      .invalidStructure

/-- The value of a text as it stands. -/
def compute (source : String) : Except Failure Binary64 := (computing source).outcome

/-- The value of a text once it is cleaned. -/
def solve (raw : String) : Except Failure Binary64 := do
  compute (← clean raw)

end Abacus
