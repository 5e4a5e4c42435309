import Abacus.Expr.Basic
import Abacus.Token.Basic

namespace Abacus

namespace Precedence

def or : Nat := 1

def and : Nat := 2

def not : Nat := 3

def comparison : Nat := 4

/-- The operand of a sign or a power; no operator between operands binds as tightly. -/
def operand : Nat := 11

end Precedence

def Connective.precedence : Connective → Nat
  | or => Precedence.or
  | and => Precedence.and

def BinaryOp.precedence : BinaryOp → Nat
  | bitOr => 5
  | bitXor => 6
  | bitAnd => 7
  | shiftLeft | shiftRight => 8
  | add | sub => 9
  | mul | div | floorDiv | mod => 10
  | pow => Precedence.operand

/-- What stands between two operands. A power is not among it: it belongs to the operand. -/
inductive Link where
  | arithmetic (op : BinaryOp)
  | connective (op : Connective)
  | comparison (op : Comparison)
  deriving DecidableEq, Repr

/-- How tightly a link binds: the greater, the tighter. -/
def Link.precedence : Link → Nat
  | arithmetic op => op.precedence
  | connective op => op.precedence
  | comparison _ => Precedence.comparison

def Link.ofSymbol? : Symbol → Option Link
  | .pipe => some (arithmetic .bitOr)
  | .caret => some (arithmetic .bitXor)
  | .ampersand => some (arithmetic .bitAnd)
  | .shiftLeft => some (arithmetic .shiftLeft)
  | .shiftRight => some (arithmetic .shiftRight)
  | .plus => some (arithmetic .add)
  | .minus => some (arithmetic .sub)
  | .star => some (arithmetic .mul)
  | .slash => some (arithmetic .div)
  | .doubleSlash => some (arithmetic .floorDiv)
  | .percent => some (arithmetic .mod)
  | .equal => some (comparison .equal)
  | .notEqual => some (comparison .notEqual)
  | .less => some (comparison .less)
  | .lessEqual => some (comparison .lessEqual)
  | .greater => some (comparison .greater)
  | .greaterEqual => some (comparison .greaterEqual)
  | _ => none

def Link.ofToken? : Token → Option Link
  | .keyword .or => some (connective .or)
  | .keyword .and => some (connective .and)
  | .symbol sign => ofSymbol? sign
  | _ => none

def UnaryOp.ofToken? : Token → Option UnaryOp
  | .keyword .not => some not
  | .symbol .plus => some pos
  | .symbol .minus => some neg
  | .symbol .tilde => some invert
  | _ => none

def Constant.ofToken? : Token → Option Constant
  | .int n => some (int n)
  | .float x => some (float x)
  | .imaginary x => some (imaginary x)
  | .str text => some (str text)
  | .keyword .true => some (bool true)
  | .keyword .false => some (bool false)
  | .keyword .none => some none
  | .symbol .ellipsis => some ellipsis
  | _ => Option.none

end Abacus
