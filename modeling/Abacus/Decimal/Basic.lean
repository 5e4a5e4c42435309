import Abacus.Binary64.Rounding

namespace Abacus

/-- The number `coefficient * 10 ^ exponent`. -/
structure Decimal where
  coefficient : Nat
  exponent : Int
  deriving DecidableEq, Repr

namespace Decimal

def value (d : Decimal) : Rat := d.coefficient * (10 : Rat) ^ d.exponent

/-- One more than the exponent of the leading digit: the number is `0.ddd * 10 ^ pointPosition`. -/
def pointPosition (d : Decimal) : Int := (Nat.toDigits 10 d.coefficient).length + d.exponent

/-- The nearest binary64. Exponents far out of range are settled without raising ten to them:
`10 ^ 309` is past every finite magnitude and `10 ^ (-324)` is under half the least one. -/
def toBinary64 (d : Decimal) : Binary64 :=
  if d.coefficient = 0 then .zero false
  else if 309 ≤ d.exponent then .infinity false
  else if d.pointPosition ≤ -324 then .zero false
  else .round false d.value

end Decimal

end Abacus
