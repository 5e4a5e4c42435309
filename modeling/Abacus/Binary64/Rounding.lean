import Abacus.Binary64.Basic

namespace Abacus.Binary64

/-- The natural number nearest to `v ≥ 0`, the even one where two are equally near. -/
def roundHalfEven (v : Rat) : Nat :=
  let below := v.floor.toNat
  let excess := v - below
  if excess < 1 / 2 ∨ (excess = 1 / 2 ∧ below % 2 = 0) then below else below + 1

/-- The greatest `e` with `2 ^ e ≤ v`, for `v > 0`. -/
def binaryExponent (v : Rat) : Int :=
  let guess : Int := v.num.natAbs.log2 - v.den.log2
  if (2 : Rat) ^ guess ≤ v then guess else guess - 1

/-- The index of the magnitude nearest to `v ≥ 0`, counting on past the last finite one. -/
def nearestIndex (v : Rat) : Nat :=
  if v = 0 then 0
  else
    let unit := max (binaryExponent v - 52) (-1074)
    (unit + 1074).toNat * binade + roundHalfEven (v / (2 : Rat) ^ unit)

/-- From halfway past the largest magnitude on, an infinity is the nearest. -/
def ofMagnitude (negative : Bool) (v : Rat) : Binary64 :=
  let index := nearestIndex v
  if h : index < magnitudeCount then finite negative ⟨index, h⟩ else infinity negative

/-- The binary64 nearest to `v`. A rational zero has no sign, so `negativeZero` gives it one. -/
def round (negativeZero : Bool) (v : Rat) : Binary64 :=
  if v = 0 then zero negativeZero
  else if v < 0 then ofMagnitude true (-v)
  else ofMagnitude false v

def ofNat (n : Nat) : Binary64 := round false n

def ofInt (n : Int) : Binary64 := round false n

end Abacus.Binary64
