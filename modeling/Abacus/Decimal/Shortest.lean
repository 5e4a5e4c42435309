import Abacus.Decimal.Basic

namespace Abacus.Decimal

/-- A magnitude written out in full: a power of two below one is a power of five over one of ten. -/
def ofMagnitude (index : Nat) : Decimal :=
  let unit := Binary64.unitExponent index
  if 0 ≤ unit then ⟨Binary64.significand index * Nat.pow 2 unit.toNat, 0⟩
  else ⟨Binary64.significand index * Nat.pow 5 (-unit).toNat, unit⟩

def readsAs (d : Decimal) (index : Nat) : Bool := Binary64.nearestIndex d.value == index

/-- The point to write on the grid that drops the last `dropped` digits of `exact`. If any point of the
grid reads back, one of the two next to the magnitude does. -/
def onGrid (index : Nat) (exact : Decimal) (dropped : Nat) : Option Decimal :=
  let step := Nat.pow 10 dropped
  let below : Decimal := ⟨exact.coefficient / step, exact.exponent + dropped⟩
  let above : Decimal := ⟨exact.coefficient / step + 1, exact.exponent + dropped⟩
  match below.readsAs index, above.readsAs index with
  | true, true => some (if 2 * (exact.coefficient % step) < step then below else above)
  | true, false => some below
  | false, true => some above
  | false, false => none

/-- Grids are tried from the coarsest on. The search ends at the latest on that of the exact expansion. -/
def shortest (index : Nat) : Decimal :=
  let exact := ofMagnitude index
  let grids := (List.range (Nat.toDigits 10 exact.coefficient).length).reverse
  (grids.findSome? (onGrid index exact)).getD exact

-- For the least magnitude `3e-324` and `7e-324` read back as well, but lie farther off.
example : shortest 1 = ⟨5, -324⟩ := by decide +kernel

end Abacus.Decimal
