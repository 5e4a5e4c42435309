namespace Abacus

namespace Binary64

/-- How many magnitudes share an exponent: `2 ^ 52`. -/
def binade : Nat := 4503599627370496

/-- How many finite magnitudes there are; one more would be `2 ^ 1024`. -/
def magnitudeCount : Nat := 2047 * binade

end Binary64

/-- A finite number is a sign and the index of its magnitude among all finite magnitudes in increasing
order. Neighbours have neighbouring indices, and the index is the encoding without the sign bit. -/
inductive Binary64 where
  | nan
  | infinity (negative : Bool)
  | finite (negative : Bool) (index : Fin Binary64.magnitudeCount)
  deriving DecidableEq, Repr

namespace Binary64

/-- A magnitude in units of its last place. Below the first full binade there is no hidden bit. -/
def significand (index : Nat) : Nat :=
  if index < binade then index else binade + index % binade

/-- The exponent of the unit in the last place. -/
def unitExponent (index : Nat) : Int :=
  max (index / binade : Nat) 1 - 1075

def magnitude (index : Nat) : Rat :=
  significand index * (2 : Rat) ^ unitExponent index

/-- The rational that a finite number stands for. -/
def signed (negative : Bool) (index : Nat) : Rat :=
  if negative then -magnitude index else magnitude index

/-- The number as a rational; there is none for an infinity or a NaN. -/
def value? : Binary64 → Option Rat
  | finite negative index => some (signed negative index)
  | _ => none

def zero (negative : Bool) : Binary64 := finite negative ⟨0, by decide⟩

def one : Binary64 := finite false ⟨1023 * binade, by decide⟩

def half : Binary64 := finite false ⟨1022 * binade, by decide⟩

def isFinite : Binary64 → Bool
  | finite .. => true
  | _ => false

/-- Zero of either sign. -/
def isZero : Binary64 → Bool
  | finite _ index => index.val == 0
  | _ => false

/-- The sign bit, which a zero has too. A NaN counts as unsigned. -/
def isNegative : Binary64 → Bool
  | nan => false
  | infinity negative | finite negative _ => negative

/-- Whether the number is less than zero, which a negative zero is not. -/
def isBelowZero (x : Binary64) : Bool := x.isNegative && !x.isZero

/-- The index with the sign of the number: zeros of both signs meet at 0. -/
def signedIndex (negative : Bool) (index : Nat) : Int :=
  if negative then -index else index

/-- The order of numbers. A NaN is neither less nor greater than anything. -/
def lt : Binary64 → Binary64 → Bool
  | nan, _ | _, nan => false
  | infinity s, infinity t => s && !t
  | infinity s, finite .. => s
  | finite .., infinity t => !t
  | finite s i, finite t j => signedIndex s i < signedIndex t j

def neg : Binary64 → Binary64
  | nan => nan
  | infinity negative => infinity (!negative)
  | finite negative index => finite (!negative) index

instance : Neg Binary64 := ⟨neg⟩

/-- The sign bit's weight in the encoding, `2 ^ 63`. -/
def signWeight : Nat := 2048 * binade

/-- Every encoding of a NaN reads as the one NaN. -/
def ofBits (bits : UInt64) : Binary64 :=
  let negative := decide (signWeight ≤ bits.toNat)
  let index := bits.toNat % signWeight
  if h : index < magnitudeCount then finite negative ⟨index, h⟩
  else if index = magnitudeCount then infinity negative
  else nan

def toBits : Binary64 → UInt64
  | nan => .ofNat (magnitudeCount + binade / 2)
  | infinity negative => .ofNat (cond negative signWeight 0 + magnitudeCount)
  | finite negative index => .ofNat (cond negative signWeight 0 + index)

end Binary64

end Abacus
