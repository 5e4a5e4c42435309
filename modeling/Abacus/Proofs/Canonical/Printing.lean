import Abacus.Proofs.Canonical.Spelling
import Abacus.Proofs.Grammar.Binding

namespace Abacus

/-- The level of an operator. A power has none. -/
def BinaryOp.level? : BinaryOp → Option Level
  | bitOr => some .bitOr
  | bitXor => some .bitXor
  | bitAnd => some .bitAnd
  | shiftLeft | shiftRight => some .shift
  | add | sub => some .sum
  | mul | div | floorDiv | mod => some .product
  | pow => none

def BinaryOp.phrase (op : BinaryOp) : Phrase :=
  match op.level? with
  | some level => .binary level
  | none => .power

/-- What may stand to the left of the operator without parentheses. -/
def BinaryOp.leftOperand (op : BinaryOp) : Phrase :=
  match op.level? with
  | some level => .binary level
  | none => .primary

def BinaryOp.rightOperand (op : BinaryOp) : Phrase :=
  match op.level? with
  | some level => level.operand
  | none => .signed

/-- The phrase that the operator makes, which its operand may be as well. -/
def UnaryOp.phrase : UnaryOp → Phrase
  | not => .negation
  | _ => .signed

theorem BinaryOp.level?_of_mem {level : Level} {op : BinaryOp} (h : op ∈ level.operators) :
    op.level? = some level := by
  cases level <;> simp only [Level.operators, List.mem_cons, List.not_mem_nil, or_false] at h
  · subst h; rfl
  · subst h; rfl
  · subst h; rfl
  · rcases h with rfl | rfl <;> rfl
  · rcases h with rfl | rfl <;> rfl
  · rcases h with rfl | rfl | rfl | rfl <;> rfl

namespace Expr

/-- The phrase that a tree makes without parentheses around it. -/
def phrase : Expr → Phrase
  | constant _ | name _ | tuple _ | list _ => .atom
  | call .. | member .. | subscript .. => .primary
  | unary op _ => op.phrase
  | binary op _ _ => op.phrase
  | connected op _ => op.chain
  | compared .. => .comparison

/-- A phrase where one at least as tight as `p` must stand. -/
def enclose (p q : Phrase) (ts : List Token) : List Token :=
  if p.precedence ≤ q.precedence then ts else .opening .round :: ts ++ [.closing .round]

mutual

/-- The tokens of a tree without parentheses around it. -/
def bare : Expr → List Token
  | constant c => [c.token]
  | name text => [.name text]
  | unary op operand => op.token :: enclose op.phrase operand.phrase operand.bare
  | binary op left right =>
    enclose op.leftOperand left.phrase left.bare ++
      .symbol op.symbol :: enclose op.rightOperand right.phrase right.bare
  | connected op operands => bareOperands op operands
  | compared first others =>
    enclose (.binary .bitOr) first.phrase first.bare ++ bareComparisons others
  | call callee arguments =>
    enclose .primary callee.phrase callee.bare ++
      .opening .round :: bareItems arguments ++ [.closing .round]
  | member target text =>
    enclose .primary target.phrase target.bare ++ [.symbol .dot, .name text]
  | subscript target index =>
    enclose .primary target.phrase target.bare ++
      .opening .square :: index.bare ++ [.closing .square]
  | tuple [] => [.opening .round, .closing .round]
  | tuple (first :: others) =>
    .opening .round :: first.bare ++ .symbol .comma :: bareItems others ++ [.closing .round]
  | list items => .opening .square :: bareItems items ++ [.closing .square]

def bareOperands (op : Connective) : List Expr → List Token
  | [] => []
  | [last] => enclose op.operand last.phrase last.bare
  | first :: others =>
    enclose op.operand first.phrase first.bare ++ op.token :: bareOperands op others

def bareComparisons : List (Comparison × Expr) → List Token
  | [] => []
  | (op, operand) :: others =>
    .symbol op.symbol :: enclose (.binary .bitOr) operand.phrase operand.bare ++
      bareComparisons others

def bareItems : List Expr → List Token
  | [] => []
  | [last] => last.bare
  | first :: others => first.bare ++ .symbol .comma :: bareItems others

end

/-- The tokens of a tree that is the whole text. -/
def bareText : Expr → List Token
  | tuple (first :: others) => first.bare ++ .symbol .comma :: bareItems others
  | e => e.bare

/-- The tokens of a tree where a phrase at least as tight must stand. -/
def placed (p : Phrase) (e : Expr) : List Token := enclose p e.phrase e.bare

end Expr

/-- The spellings of tokens with a space between them. -/
def Token.spaced : List Token → List Char
  | [] => []
  | [last] => last.spelling
  | t :: ts => t.spelling ++ ' ' :: spaced ts

/-- The text that a tree is written as. -/
def Expr.canonical (e : Expr) : String := .ofList (Token.spaced e.bareText)

end Abacus
