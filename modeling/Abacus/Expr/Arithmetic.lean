import Abacus.Expr.Basic

namespace Abacus

def UnaryOp.isArithmetic : UnaryOp → Bool
  | pos | neg => true
  | invert | not => false

def BinaryOp.isArithmetic : BinaryOp → Bool
  | add | sub | mul | div | floorDiv | mod | pow => true
  | bitAnd | bitOr | bitXor | shiftLeft | shiftRight => false

def Expr.isArithmetic : Expr → Bool
  | constant c => c.number?.isSome
  | unary op operand => op.isArithmetic && operand.isArithmetic
  | binary op left right => op.isArithmetic && left.isArithmetic && right.isArithmetic
  | _ => false

end Abacus
