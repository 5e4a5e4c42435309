import Abacus.Decimal.Shortest

namespace Abacus

namespace Decimal

/-- The digits without trailing zeros. -/
def significantDigits (d : Decimal) : List Char :=
  ((Nat.toDigits 10 d.coefficient).reverse.dropWhile (· == '0')).reverse

def positional (d : Decimal) : List Char :=
  let digits := d.significantDigits
  let point := d.pointPosition
  if point ≤ 0 then '0' :: '.' :: (List.replicate (-point).toNat '0' ++ digits)
  else if digits.length ≤ point.toNat then digits ++ List.replicate (point.toNat - digits.length) '0'
  else digits.take point.toNat ++ '.' :: digits.drop point.toNat

/-- An exponent has a sign and at least two digits. -/
def exponentText (e : Int) : List Char :=
  let digits := Nat.toDigits 10 e.natAbs
  (if e < 0 then '-' else '+') :: (List.replicate (2 - digits.length) '0' ++ digits)

def scientific (d : Decimal) : List Char :=
  let mantissa := match d.significantDigits with
    | first :: second :: rest => first :: '.' :: second :: rest
    | digits => digits
  mantissa ++ 'e' :: exponentText (d.pointPosition - 1)

/-- A whole number is written with a zero after the point. -/
def withPoint (text : List Char) : List Char :=
  if text.contains '.' then text else text ++ ['.', '0']

def resultText (d : Decimal) : List Char :=
  let exponent := d.pointPosition - 1
  if -4 ≤ exponent ∧ exponent < 16 then withPoint d.positional else d.scientific

example : (Decimal.mk 15 (-6)).resultText = "1.5e-05".toList := by decide
example : (Decimal.mk 1 (-4)).resultText = "0.0001".toList := by decide
example : (Decimal.mk 1 15).resultText = "1000000000000000.0".toList := by decide
example : (Decimal.mk 1 16).resultText = "1e+16".toList := by decide
example : (Decimal.mk 3125 97).resultText = "3.125e+100".toList := by decide

end Decimal

namespace Binary64

def withSign (negative : Bool) (text : List Char) : List Char :=
  if negative then '-' :: text else text

def resultChars : Binary64 → List Char
  | nan => ['n', 'a', 'n']
  | infinity negative => withSign negative ['i', 'n', 'f']
  | finite negative index => withSign negative <|
    if index.val = 0 then ['0', '.', '0'] else (Decimal.shortest index).resultText

/-- A number as the calculator prints it. -/
def resultText (x : Binary64) : String := .ofList x.resultChars

def literalChars : Binary64 → List Char
  | nan => ['N', 'a', 'N']
  | infinity negative => withSign negative ['i', 'n', 'f']
  | finite negative index => withSign negative <|
    if index.val = 0 then ['0'] else (Decimal.shortest index).positional

/-- A number as messages quote it. -/
def literalText (x : Binary64) : String := .ofList x.literalChars

end Binary64

end Abacus
