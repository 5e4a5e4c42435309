import Abacus.Binary64.Arithmetic

namespace Abacus

inductive Constant where
  | int (n : Int64)
  | float (x : Binary64)
  | imaginary (x : Binary64)
  | str (text : String)
  | bool (b : Bool)
  | none
  | ellipsis
  deriving DecidableEq, Repr

/-- The value of an integer or float literal; the other constants are no numbers. -/
def Constant.number? : Constant → Option Binary64
  | int n => some (.ofInt n.toInt)
  | float x => some x
  | _ => Option.none

inductive UnaryOp where
  | pos
  | neg
  | invert
  | not
  deriving DecidableEq, Repr

inductive BinaryOp where
  | add
  | sub
  | mul
  | div
  | floorDiv
  | mod
  | pow
  | bitAnd
  | bitOr
  | bitXor
  | shiftLeft
  | shiftRight
  deriving DecidableEq, Repr

inductive Connective where
  | and
  | or
  deriving DecidableEq, Repr

inductive Comparison where
  | equal
  | notEqual
  | less
  | lessEqual
  | greater
  | greaterEqual
  deriving DecidableEq, Repr

/-- The language is wider than arithmetic: names, calls and containers are read but have no value. A
chain of one connective is one node, as is a chain of comparisons. -/
inductive Expr where
  | constant (c : Constant)
  | name (text : String)
  | unary (op : UnaryOp) (operand : Expr)
  | binary (op : BinaryOp) (left right : Expr)
  | connected (op : Connective) (operands : List Expr)
  | compared (first : Expr) (others : List (Comparison × Expr))
  | call (callee : Expr) (arguments : List Expr)
  | member (target : Expr) (text : String)
  | subscript (target index : Expr)
  | tuple (items : List Expr)
  | list (items : List Expr)
  deriving Repr

namespace Expr

mutual

/-- The number of nodes on the longest way from the root to a leaf. -/
def height : Expr → Nat
  | constant _ | name _ => 1
  | unary _ operand => operand.height + 1
  | binary _ left right => max left.height right.height + 1
  | connected _ operands => heightOfList operands + 1
  | compared first others => max first.height (heightOfCompared others) + 1
  | call callee arguments => max callee.height (heightOfList arguments) + 1
  | member target _ => target.height + 1
  | subscript target index => max target.height index.height + 1
  | tuple items => heightOfList items + 1
  | list items => heightOfList items + 1

def heightOfList : List Expr → Nat
  | [] => 0
  | item :: items => max item.height (heightOfList items)

def heightOfCompared : List (Comparison × Expr) → Nat
  | [] => 0
  | (_, operand) :: others => max operand.height (heightOfCompared others)

end

end Expr

end Abacus
