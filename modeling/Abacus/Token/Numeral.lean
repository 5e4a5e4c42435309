import Abacus.Fault

namespace Abacus

structure Numeral where
  /-- The digits before the point, of which there are none in `.5`. -/
  whole : List Char
  /-- The digits after the point, if there is a point. -/
  fraction : Option (List Char)
  exponent : Option Int
  deriving DecidableEq, Repr

namespace Numeral

def digits (text : List Char) : List Char := text.takeWhile Char.isDigit

def afterDigits (text : List Char) : List Char := text.dropWhile Char.isDigit

def scanFraction : List Char → Option (List Char) × List Char
  | '.' :: rest => (some (digits rest), afterDigits rest)
  | rest => (none, rest)

/-- The sign of an exponent, negative or not. -/
def scanSign : List Char → Bool × List Char
  | '+' :: rest => (false, rest)
  | '-' :: rest => (true, rest)
  | rest => (false, rest)

/-- A letter opens an exponent only if digits follow it, behind an optional sign. -/
def scanExponent : List Char → Option Int × List Char
  | [] => (none, [])
  | mark :: rest =>
    if mark = 'e' || mark = 'E' then
      let (negative, unsigned) := scanSign rest
      let power : Int := Nat.ofDigitChars 10 (digits unsigned) 0
      if (digits unsigned).isEmpty then (none, mark :: rest)
      else (some (if negative then -power else power), afterDigits unsigned)
    else (none, mark :: rest)

def scan (text : List Char) : Numeral × List Char :=
  let (fraction, afterFraction) := scanFraction (afterDigits text)
  let (exponent, rest) := scanExponent afterFraction
  (⟨digits text, fraction, exponent⟩, rest)

theorem length_afterDigits_le (text : List Char) : (afterDigits text).length ≤ text.length :=
  (List.dropWhile_sublist _).length_le

theorem length_scanFraction_le (text : List Char) :
    (scanFraction text).2.length ≤ text.length := by
  unfold scanFraction
  split
  · simpa using Nat.le_succ_of_le (length_afterDigits_le _)
  · simp

theorem length_scanSign_le (text : List Char) : (scanSign text).2.length ≤ text.length := by
  unfold scanSign
  split <;> simp

theorem length_scanExponent_le (text : List Char) :
    (scanExponent text).2.length ≤ text.length := by
  unfold scanExponent
  split
  · simp
  · rename_i mark rest
    split
    · dsimp only
      split
      · simp
      · have := length_afterDigits_le (scanSign rest).2
        have := length_scanSign_le rest
        simp only [List.length_cons]
        omega
    · simp

theorem length_scan_le (text : List Char) :
    (scan text).2.length ≤ (scanFraction (afterDigits text)).2.length :=
  length_scanExponent_le _

def toDecimal (n : Numeral) : Decimal where
  coefficient := Nat.ofDigitChars 10 (n.whole ++ n.fraction.getD []) 0
  exponent := n.exponent.getD 0 - (n.fraction.getD []).length

def isWhole (n : Numeral) : Bool := n.fraction.isNone && n.exponent.isNone

/-- Zeros in front are allowed only in a literal of zeros alone. -/
def hasLeadingZeros (n : Numeral) : Bool :=
  1 < n.whole.length && n.whole.head? == some '0' && n.whole.any (· != '0')

/-- The least integer that a literal keeps only as the nearest float: `2 ^ 63`. -/
def intLimit : Nat := 9223372036854775808

/-- An integer literal too wide for an integer is a float, unless no float is near it. -/
def toToken (offset : Nat) (n : Numeral) (isImaginary : Bool) : Except Fault Token :=
  let float := n.toDecimal.toBinary64
  if isImaginary then .ok (.imaginary float)
  else if !n.isWhole then .ok (.float float)
  else if n.hasLeadingZeros then .error (.malformed .leadingZeros offset)
  else if n.toDecimal.coefficient < intLimit then .ok (.int (.ofNat n.toDecimal.coefficient))
  else if float.isFinite then .ok (.float float)
  else .error .intTooLarge

end Numeral

end Abacus
