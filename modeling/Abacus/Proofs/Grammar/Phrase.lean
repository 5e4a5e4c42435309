import Abacus.Expr.Precedence

namespace Abacus

/-- The levels of the operators that associate to the left. -/
inductive Level where
  | bitOr
  | bitXor
  | bitAnd
  | shift
  | sum
  | product
  deriving DecidableEq, Repr

/-- The parts of an expression, from the loosest to the tightest. -/
inductive Phrase where
  | disjunction
  | conjunction
  | negation
  | comparison
  | binary (level : Level)
  | signed
  | power
  | primary
  | atom
  deriving DecidableEq, Repr

def Level.operators : Level → List BinaryOp
  | bitOr => [.bitOr]
  | bitXor => [.bitXor]
  | bitAnd => [.bitAnd]
  | shift => [.shiftLeft, .shiftRight]
  | sum => [.add, .sub]
  | product => [.mul, .div, .floorDiv, .mod]

/-- What stands to the right of an operator of the level. -/
def Level.operand : Level → Phrase
  | bitOr => .binary .bitXor
  | bitXor => .binary .bitAnd
  | bitAnd => .binary .shift
  | shift => .binary .sum
  | sum => .binary .product
  | product => .signed

/-- The phrase that may stand for a phrase by itself, one step tighter. -/
def Phrase.tighter? : Phrase → Option Phrase
  | disjunction => some conjunction
  | conjunction => some negation
  | negation => some comparison
  | comparison => some (binary .bitOr)
  | binary level => some level.operand
  | signed => some power
  | power => some primary
  | primary => some atom
  | atom => none

/-- The phrase that a chain of the connective is. -/
def Connective.chain : Connective → Phrase
  | or => .disjunction
  | and => .conjunction

def Connective.operand : Connective → Phrase
  | or => .conjunction
  | and => .negation

def Connective.token : Connective → Token
  | or => .keyword .or
  | and => .keyword .and

def BinaryOp.symbol : BinaryOp → Symbol
  | add => .plus
  | sub => .minus
  | mul => .star
  | div => .slash
  | floorDiv => .doubleSlash
  | mod => .percent
  | pow => .doubleStar
  | bitAnd => .ampersand
  | bitOr => .pipe
  | bitXor => .caret
  | shiftLeft => .shiftLeft
  | shiftRight => .shiftRight

def Comparison.symbol : Comparison → Symbol
  | equal => .equal
  | notEqual => .notEqual
  | less => .less
  | lessEqual => .lessEqual
  | greater => .greater
  | greaterEqual => .greaterEqual

def UnaryOp.token : UnaryOp → Token
  | pos => .symbol .plus
  | neg => .symbol .minus
  | invert => .symbol .tilde
  | not => .keyword .not

def Constant.token : Constant → Token
  | int n => .int n
  | float x => .float x
  | imaginary x => .imaginary x
  | str text => .str text
  | bool true => .keyword .true
  | bool false => .keyword .false
  | none => .keyword .none
  | ellipsis => .symbol .ellipsis

/-- What the grammar derives: phrases, the parts of chains behind their first operand, the items
between brackets, and whole texts. -/
inductive Category where
  | phrase (phrase : Phrase)
  | operands (op : Connective)
  | comparisons
  | items
  | sentence
  deriving DecidableEq, Repr

/-- What tokens of a category stand for. -/
def Category.Tree : Category → Type
  | phrase _ | sentence => Expr
  | operands _ | items => List Expr
  | comparisons => List (Comparison × Expr)

/-- The tokens make up the category with this tree. The depth bounds how many of these lie inside
one another: brackets other than `()`, right sides of operators, rests of chains, operands of a sign
or a `not`. -/
inductive Derives : (depth : Nat) → (category : Category) → List Token → category.Tree → Prop where
  | single {d ts e} (whole : Derives d (.phrase .disjunction) ts e) : Derives d .sentence ts e
  | bareTuple {d ts us e es} (first : Derives d (.phrase .disjunction) ts e)
      (others : Derives d .items us es) :
      Derives d .sentence (ts ++ .symbol .comma :: us) (.tuple (e :: es))
  | looser {d p q ts e} (step : p.tighter? = some q) (alone : Derives d (.phrase q) ts e) :
      Derives d (.phrase p) ts e
  | connected {d op ts us e es} (first : Derives (d + 1) (.phrase op.operand) ts e)
      (others : Derives d (.operands op) us es) :
      Derives (d + 1) (.phrase op.chain) (ts ++ op.token :: us) (.connected op (e :: es))
  | lastOperand {d op ts e} (last : Derives d (.phrase op.operand) ts e) :
      Derives d (.operands op) ts [e]
  | operand {d op ts us e es} (first : Derives d (.phrase op.operand) ts e)
      (others : Derives d (.operands op) us es) :
      Derives d (.operands op) (ts ++ op.token :: us) (e :: es)
  | not {d ts e} (operand : Derives d (.phrase .negation) ts e) :
      Derives (d + 1) (.phrase .negation) (.keyword .not :: ts) (.unary .not e)
  | compared {d ts us e es} (first : Derives (d + 1) (.phrase (.binary .bitOr)) ts e)
      (others : Derives d .comparisons us es) :
      Derives (d + 1) (.phrase .comparison) (ts ++ us) (.compared e es)
  | lastComparison {d ts e} (op : Comparison) (last : Derives d (.phrase (.binary .bitOr)) ts e) :
      Derives d .comparisons (.symbol op.symbol :: ts) [(op, e)]
  | comparison {d ts us e es} (op : Comparison) (first : Derives d (.phrase (.binary .bitOr)) ts e)
      (others : Derives d .comparisons us es) :
      Derives d .comparisons (.symbol op.symbol :: ts ++ us) ((op, e) :: es)
  | binary {d level op ts us e f} (mem : op ∈ level.operators)
      (left : Derives (d + 1) (.phrase (.binary level)) ts e)
      (right : Derives d (.phrase level.operand) us f) :
      Derives (d + 1) (.phrase (.binary level)) (ts ++ .symbol op.symbol :: us) (.binary op e f)
  | signed {d op ts e} (sign : op ≠ .not) (operand : Derives d (.phrase .signed) ts e) :
      Derives (d + 1) (.phrase .signed) (op.token :: ts) (.unary op e)
  | power {d ts us e f} (base : Derives (d + 1) (.phrase .primary) ts e)
      (exponent : Derives d (.phrase .signed) us f) :
      Derives (d + 1) (.phrase .power) (ts ++ .symbol .doubleStar :: us) (.binary .pow e f)
  | call {d ts us e es} (callee : Derives (d + 1) (.phrase .primary) ts e)
      (arguments : Derives d .items us es) :
      Derives (d + 1) (.phrase .primary) (ts ++ .opening .round :: us ++ [.closing .round])
        (.call e es)
  | subscript {d ts us e f} (target : Derives (d + 1) (.phrase .primary) ts e)
      (index : Derives d (.phrase .disjunction) us f) :
      Derives (d + 1) (.phrase .primary) (ts ++ .opening .square :: us ++ [.closing .square])
        (.subscript e f)
  | member {d ts e} (text : String) (target : Derives d (.phrase .primary) ts e) :
      Derives d (.phrase .primary) (ts ++ [.symbol .dot, .name text]) (.member e text)
  | constant {d} (c : Constant) : Derives d (.phrase .atom) [c.token] (.constant c)
  | name {d} (text : String) : Derives d (.phrase .atom) [.name text] (.name text)
  | empty {d} : Derives d (.phrase .atom) [.opening .round, .closing .round] (.tuple [])
  | group {d ts e} (inner : Derives d (.phrase .disjunction) ts e) :
      Derives (d + 1) (.phrase .atom) (.opening .round :: ts ++ [.closing .round]) e
  | tuple {d ts us e es} (first : Derives d (.phrase .disjunction) ts e)
      (others : Derives d .items us es) :
      Derives (d + 1) (.phrase .atom)
        (.opening .round :: ts ++ .symbol .comma :: us ++ [.closing .round]) (.tuple (e :: es))
  | list {d ts es} (inner : Derives d .items ts es) :
      Derives (d + 1) (.phrase .atom) (.opening .square :: ts ++ [.closing .square]) (.list es)
  | noItem {d} : Derives d .items [] []
  | lastItem {d ts e} (last : Derives d (.phrase .disjunction) ts e) : Derives d .items ts [e]
  | item {d ts us e es} (first : Derives d (.phrase .disjunction) ts e)
      (others : Derives d .items us es) :
      Derives d .items (ts ++ .symbol .comma :: us) (e :: es)

end Abacus
