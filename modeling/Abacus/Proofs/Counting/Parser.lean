import Abacus.Expr.Descent

namespace Abacus.Counting

open Lexeme (next)

/-- Why the parser ends early. Only faults are due to the text. -/
inductive Stop where
  /-- A loop to go around, or a call to make, without fuel. -/
  | exhausted
  /-- A round of a loop that took no lexeme. -/
  | stalled
  /-- A place or a count to take down that is zero. -/
  | underflow
  | fault (fault : Fault)
  deriving DecidableEq, Repr

/-- Where the parser is. It steps back at times, and counts a descent on the way in and on the way out. -/
structure Cursor where
  /-- The place of the lexeme to read next. -/
  pos : Nat
  /-- How many descents are under way. -/
  descents : Nat
  deriving DecidableEq, Repr

abbrev Steps := StateT Cursor (Except Stop)

/-- A tree, with the height that is kept along with it. -/
structure Parsed where
  expr : Expr
  depth : Nat
  deriving Repr

namespace Parsed

def leaf (e : Expr) : Parsed := ⟨e, 1⟩

/-- The greatest of the heights, if there are any trees. -/
def deepest (items : List Parsed) : Nat := items.foldr (fun item depth => max item.depth depth) 0

def exprs (items : List Parsed) : List Expr := items.map expr

end Parsed

/-- Comparisons, and the greatest of the heights of what they compare. -/
structure Chain where
  depth : Nat
  others : List (Comparison × Expr)

variable {α : Type}

def stop (cause : Stop) : Steps α := fun _ => .error cause

def moveOn : Steps Unit := fun s => .ok ((), { s with pos := s.pos + 1 })

def stepBack : Steps Unit := fun s =>
  if s.pos = 0 then .error .underflow else .ok ((), { s with pos := s.pos - 1 })

/-- Counts a descent that is over. -/
def leave : Steps Unit := fun s =>
  if s.descents = 0 then .error .underflow else .ok ((), { s with descents := s.descents - 1 })

/-- How a round of a loop ends. What ends the loop before anything else is done is no round. -/
inductive Round (α : Type) where
  /-- Back to the head of the loop. -/
  | again (value : α)
  /-- Out of the loop from inside of it. -/
  | last (value : α)
  /-- Out of the loop at its head. -/
  | done (value : α)

/-- Goes around a loop. No round may do without a lexeme. -/
def rounds (body : α → Steps (Round α)) : (fuel : Nat) → α → Steps α
  | 0, _ => stop .exhausted
  | fuel + 1, value => fun s => do
    let (round, after) ← body value s
    match round with
    | .again value => if s.pos < after.pos then rounds body fuel value after else throw .stalled
    | .last value => if s.pos < after.pos then return (value, after) else throw .stalled
    | .done value => return (value, after)

/-- The calls that lead back into the parser, each of which spends fuel. -/
structure Callees where
  expression : (least : Nat) → Steps Parsed
  /-- The operand of a sign, or an exponent. -/
  operand : Steps Parsed

section Moves

variable (ls : List Lexeme)

def peek : Steps Token := fun s => .ok (next (ls.drop s.pos), s)

/-- A fault at the next lexeme, or at the last one if there is none. -/
def refuse (cause : Malformation) : Steps α := fun s =>
  .error (.fault (.malformed cause (((ls[s.pos]?.or ls.getLast?).map Lexeme.offset).getD 0)))

def unexpected : Steps α := do
  match ← peek ls with
  | .eof => refuse ls .unexpectedEnd
  | token => refuse ls (.unexpectedToken token)

def advance : Steps Token := do
  let token ← peek ls
  moveOn
  return token

def eat (token : Token) : Steps Bool := do
  if (← peek ls) = token then
    moveOn
    return true
  else return false

def expect (token : Token) : Steps Unit := do
  if ← eat ls token then return () else unexpected ls

/-- Counts a descent that begins. -/
def enter : Steps Unit := fun s =>
  let s := { s with descents := s.descents + 1 }
  if Expr.maxDepth < s.descents then refuse ls .nestedTooDeeply s else .ok ((), s)

/-- A new node over parts of which the highest is so high. -/
def node (below : Nat) (e : Expr) : Steps Parsed :=
  let depth := below + 1
  if Expr.maxDepth < depth then refuse ls .nestedTooDeeply else pure ⟨e, depth⟩

end Moves

section Readers

open Parsed (deepest exprs)

variable (ls : List Lexeme) (inner : Callees) (fuel : Nat)

def nextItem (bracket : Bracket) (found : List Parsed) : Steps (Round (List Parsed)) := do
  if ← eat ls (.closing bracket) then return .done found
  else
    let item ← inner.expression Precedence.or
    if ← eat ls (.symbol .comma) then return .again (found ++ [item])
    else
      expect ls (.closing bracket)
      return .last (found ++ [item])

/-- The items up to a closing bracket, which is passed. -/
def items (bracket : Bracket) : Steps (List Parsed) := do
  enter ls
  let found ← rounds (nextItem ls inner bracket) fuel []
  leave
  return found

/-- What follows the first expression behind a parenthesis, where that is not all. -/
def tupleBehind (first : Parsed) : Steps Parsed := do
  if ← eat ls (.symbol .comma) then
    let others ← items ls inner fuel .round
    node ls (deepest (first :: others)) (.tuple (exprs (first :: others)))
  else unexpected ls

def group : Steps Parsed := do
  if ← eat ls (.closing .round) then return .leaf (.tuple [])
  else
    enter ls
    let first ← inner.expression Precedence.or
    leave
    if ← eat ls (.closing .round) then return first else tupleBehind ls inner fuel first

def atom : Steps Parsed := do
  let token ← advance ls
  match Constant.ofToken? token, token with
  | some c, _ => return .leaf (.constant c)
  | none, .name text => return .leaf (.name text)
  | none, .opening .round => group ls inner fuel
  | none, .opening .square =>
    let found ← items ls inner fuel .square
    node ls (deepest found) (.list (exprs found))
  | none, _ =>
    stepBack
    unexpected ls

def nextTrailer (target : Parsed) : Steps (Round Parsed) := do
  match ← peek ls with
  | .opening .round =>
    moveOn
    let arguments ← items ls inner fuel .round
    let applied ← node ls (max target.depth (deepest arguments)) (.call target.expr (exprs arguments))
    return .again applied
  | .opening .square =>
    moveOn
    enter ls
    let index ← inner.expression Precedence.or
    leave
    expect ls (.closing .square)
    let applied ← node ls (max target.depth index.depth) (.subscript target.expr index.expr)
    return .again applied
  | .symbol .dot =>
    moveOn
    match ← advance ls with
    | .name text =>
      let applied ← node ls target.depth (.member target.expr text)
      return .again applied
    | _ =>
      stepBack
      unexpected ls
  | _ => return .done target

def primary : Steps Parsed := do
  let target ← atom ls inner fuel
  rounds (nextTrailer ls inner fuel) fuel target

def power : Steps Parsed := do
  let base ← primary ls inner fuel
  if ← eat ls (.symbol .doubleStar) then
    enter ls
    let exponent ← inner.operand
    leave
    node ls (max base.depth exponent.depth) (.binary .pow base.expr exponent.expr)
  else return base

/-- The sign that a token is where operators bind at least so tightly. -/
def sign? (least : Nat) (token : Token) : Option UnaryOp :=
  match UnaryOp.ofToken? token with
  | some .not => if least ≤ Precedence.not then some .not else none
  | found => found

def unaryOrPower (least : Nat) : Steps Parsed := do
  match sign? least (← peek ls) with
  | none => power ls inner fuel
  | some op =>
    moveOn
    enter ls
    let operand ← if op = .not then inner.expression Precedence.not else inner.operand
    leave
    node ls operand.depth (.unary op operand.expr)

def nextOperand (op : Connective) (found : List Parsed) : Steps (Round (List Parsed)) := do
  if Link.ofToken? (← peek ls) = some (.connective op) then
    moveOn
    let operand ← inner.expression (op.precedence + 1)
    return .again (found ++ [operand])
  else return .done found

/-- The chain of a connective, which comes next. -/
def connectedTo (first : Parsed) (op : Connective) : Steps Parsed := do
  enter ls
  let operands ← rounds (nextOperand ls inner op) fuel [first]
  leave
  node ls (deepest operands) (.connected op (exprs operands))

def nextComparison (chain : Chain) : Steps (Round Chain) := do
  match Link.ofToken? (← peek ls) with
  | some (.comparison op) =>
    moveOn
    let operand ← inner.expression (Precedence.comparison + 1)
    return .again ⟨max chain.depth operand.depth, chain.others ++ [(op, operand.expr)]⟩
  | _ => return .done chain

/-- The chain of comparisons, of which the first comes next. -/
def comparedTo (left : Parsed) : Steps Parsed := do
  enter ls
  let chain ← rounds (nextComparison ls inner) fuel ⟨left.depth, []⟩
  leave
  node ls chain.depth (.compared left.expr chain.others)

def extend (left : Parsed) (link : Link) : Steps Parsed := do
  match link with
  | .arithmetic op =>
    moveOn
    enter ls
    let right ← inner.expression (op.precedence + 1)
    leave
    node ls (max left.depth right.depth) (.binary op left.expr right.expr)
  | .connective op => connectedTo ls inner fuel left op
  | .comparison _ => comparedTo ls inner fuel left

def nextLink (least : Nat) (left : Parsed) : Steps (Round Parsed) := do
  match Link.ofToken? (← peek ls) with
  | none => return .done left
  | some link =>
    if link.precedence < least then return .done left
    else
      let joined ← extend ls inner fuel left link
      return .again joined

def expression (least : Nat) : Steps Parsed := do
  let first ← unaryOrPower ls inner fuel least
  rounds (nextLink ls inner fuel least) fuel first

def nextListed (found : List Parsed) : Steps (Round (List Parsed)) := do
  if ← eat ls (.symbol .comma) then
    if (← peek ls) = .eof then return .last found
    else
      let item ← inner.expression Precedence.or
      return .again (found ++ [item])
  else return .done found

/-- An expression, or several with commas. -/
def sentence : Steps Parsed := do
  let first ← inner.expression Precedence.or
  if (← peek ls) = .symbol .comma then
    let found ← rounds (nextListed ls inner) fuel [first]
    node ls (deepest found) (.tuple (exprs found))
  else return first

end Readers

section Whole

variable (ls : List Lexeme)

/-- The calls that may be made with so much fuel. -/
def callees : (fuel : Nat) → Callees
  | 0 => ⟨fun _ => stop .exhausted, stop .exhausted⟩
  | fuel + 1 =>
    let inner := callees fuel
    ⟨expression ls inner (fuel + 1), unaryOrPower ls inner (fuel + 1) Precedence.operand⟩

/-- The expression that all the lexemes make up. -/
def ofLexemes (fuel : Nat) : Except Stop Expr := do
  let (found, after) ← sentence ls (callees ls fuel) fuel ⟨0, 0⟩
  if next (ls.drop after.pos) = .eof then return found.expr
  else (unexpected ls after).map Prod.fst

end Whole

end Abacus.Counting
