import Abacus.Expr.Operation

namespace Abacus

def UnaryOp.apply (op : UnaryOp) (x : Binary64) : Except Fault Binary64 :=
  match op with
  | pos => .ok x
  | neg => .ok (-x)
  | invert | not => .error (.unsupported .unaryOperator)

/-- Refuses whatever is not arithmetic, so that nothing depends on a check beforehand. -/
def Expr.value (e : Expr) (raise : Binary64 → Binary64 → Binary64 := Binary64.raise) :
    Except Failure Binary64 :=
  match e with
  | constant c =>
    match c.number? with
    | some x => .ok x
    | none => .error .notANumber
  | unary op operand => do
    let x ← operand.value raise
    (op.apply x).mapError .evaluation
  | binary op left right => do
    let a ← left.value raise
    let b ← right.value raise
    (op.apply a b raise).mapError .evaluation
  | _ => .error (.evaluation (.unsupported .element))

end Abacus
