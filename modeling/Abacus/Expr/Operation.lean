import Abacus.Expr.Basic
import Abacus.Fault

namespace Abacus

namespace Binary64

/-- The floored remainder: where it is not zero it has the sign of the divisor, and so has the
zero that stands for an exact division. -/
def flooredRemainder (a b : Binary64) : Except Fault Binary64 :=
  if b.isZero then .error .moduloByZero
  else
    let m := a % b
    if m.isZero then .ok (zero b.isNegative)
    else if b.isBelowZero != m.isBelowZero then .ok (m + b)
    else .ok m

/-- The floored quotient, worked out from the remainder so that the two fit together. Dividing
`a - m` by `b` is exact but for rounding, so a quotient just below an integer is taken up to it. -/
def flooredQuotient (a b : Binary64) : Except Fault Binary64 :=
  if b.isZero then .error .floorDivisionByZero
  else
    let m := a % b
    let truncated := (a - m) / b
    let quotient :=
      if !m.isZero && b.isBelowZero != m.isBelowZero then truncated - one else truncated
    if quotient.isZero then .ok (zero (a / b).isNegative)
    else
      let floored := quotient.floor
      .ok (if half.lt (quotient - floored) then floored + one else floored)

/-- The power of finite numbers must exist, be real and be finite; with an infinity or a NaN
among the operands anything goes. The power itself is the number library's. -/
def realPower (a b : Binary64) (raise : Binary64 → Binary64 → Binary64 := Binary64.raise) :
    Except Fault Binary64 :=
  if b.isZero then .ok one
  else if !(a.isFinite && b.isFinite) then .ok (raise a b)
  else if a.isZero && b.isNegative then .error .zeroToNegativePower
  else if a.isBelowZero && !b.isIntegral then .error .complexResult
  else match raise a b with
    | infinity _ => .error .overflow
    | result => .ok result

end Binary64

def BinaryOp.apply (op : BinaryOp) (a b : Binary64)
    (raise : Binary64 → Binary64 → Binary64 := Binary64.raise) : Except Fault Binary64 :=
  match op with
  | add => .ok (a + b)
  | sub => .ok (a - b)
  | mul => .ok (a * b)
  | div => if b.isZero then .error .divisionByZero else .ok (a / b)
  | floorDiv => a.flooredQuotient b
  | mod => a.flooredRemainder b
  | pow => a.realPower b raise
  | bitAnd | bitOr | bitXor | shiftLeft | shiftRight => .error (.unsupported .binaryOperator)

end Abacus
