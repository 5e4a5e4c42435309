import Abacus.Expr.Precedence
import Abacus.Expr.Reading

namespace Abacus.Expr

open Lexeme (next unexpected tooDeep close)

/-- The readers that a descent leads to: into a bracket, to the right of an operator or under a sign. -/
structure Descent where
  /-- An expression whose operators bind at least so tightly. -/
  expression : (least : Nat) → (ts : List Lexeme) → Except Fault (Reading Expr ts.length)
  /-- The operand of a sign, or an exponent. -/
  operand : (ts : List Lexeme) → Except Fault (Reading Expr ts.length)

/-- Goes one descent down, if there is one left. -/
def descend (below : Option Descent) (ts : List Lexeme) : Except Fault Descent :=
  match below with
  | some inner => .ok inner
  | none => .error (tooDeep ts)

/-- The items up to a closing bracket, which is read too. A comma may follow the last item. -/
def items (inner : Descent) (bracket : Bracket) (ts : List Lexeme) :
    Except Fault (Reading (List Expr) ts.length) :=
  match ts with
  | [] => .error (unexpected [])
  | lexeme :: rest =>
    if lexeme.token = .closing bracket then .ok ⟨[], rest, Nat.lt_succ_self _⟩
    else do
      let first ← inner.expression Precedence.or (lexeme :: rest)
      match hrest : first.rest with
      | ⟨.symbol .comma, _⟩ :: after =>
        have hshort := first.length_after_lt hrest
        let others ← items inner bracket after
        return (others.map (first.value :: ·)).widen (Nat.le_of_lt hshort)
      | _ => return (← close bracket first).map ([·])
termination_by ts.length
decreasing_by exact hshort

/-- What follows an opening parenthesis: nothing, a group, or a tuple. -/
def group (below : Option Descent) (ts : List Lexeme) : Except Fault (Reading Expr ts.length) :=
  match ts with
  | ⟨.closing .round, _⟩ :: rest => .ok ⟨tuple [], rest, Nat.lt_succ_self _⟩
  | ts => do
    let inner ← descend below ts
    let first ← inner.expression Precedence.or ts
    match hrest : first.rest with
    | ⟨.symbol .comma, _⟩ :: after => do
      let others ← items (← descend below after) .round after
      grow ((others.map (tuple <| first.value :: ·)).widen
        (Nat.le_of_lt (first.length_after_lt hrest)))
    | _ => close .round first

def atom (below : Option Descent) (ts : List Lexeme) : Except Fault (Reading Expr ts.length) :=
  match ts with
  | [] => .error (unexpected [])
  | lexeme :: rest =>
    match Constant.ofToken? lexeme.token, lexeme.token with
    | some c, _ => .ok ⟨constant c, rest, Nat.lt_succ_self _⟩
    | none, .name text => .ok ⟨name text, rest, Nat.lt_succ_self _⟩
    | none, .opening .round => return (← group below rest).widen (Nat.le_succ _)
    | none, .opening .square => do
      let inner ← descend below rest
      let found ← items inner .square rest
      grow ((found.map list).widen (Nat.le_succ _))
    | none, _ => .error (unexpected (lexeme :: rest))

/-- What follows a target as long as it applies to it: calls, subscripts, members. -/
def trailers (below : Option Descent) (target : Expr) (ts : List Lexeme) :
    Except Fault (Reading Expr (ts.length + 1)) :=
  match ts with
  | ⟨.opening .round, _⟩ :: rest => do
    let inner ← descend below rest
    let arguments ← items inner .round rest
    let applied ← grow (arguments.map (call target))
    have hshort := Nat.lt_succ_of_lt applied.short
    return (← trailers below applied.value applied.rest).widen (Nat.le_succ_of_le hshort)
  | ⟨.opening .square, _⟩ :: rest => do
    let inner ← descend below rest
    let index ← close .square (← inner.expression Precedence.or rest)
    let applied ← grow (index.map (subscript target))
    have hshort := Nat.lt_succ_of_lt applied.short
    return (← trailers below applied.value applied.rest).widen (Nat.le_succ_of_le hshort)
  | ⟨.symbol .dot, _⟩ :: ⟨.name text, _⟩ :: rest => do
    let applied ← grow (⟨member target text, rest, Nat.lt_succ_self _⟩ : Reading Expr _)
    have hshort := Nat.lt_succ_of_lt applied.short
    return (← trailers below applied.value applied.rest).widen (Nat.le_succ_of_le hshort)
  | ⟨.symbol .dot, _⟩ :: rest => .error (unexpected rest)
  | ts => .ok ⟨target, ts, Nat.lt_succ_self _⟩
termination_by ts.length
decreasing_by all_goals exact hshort

def primary (below : Option Descent) (ts : List Lexeme) :
    Except Fault (Reading Expr ts.length) := do
  let target ← atom below ts
  return (← trailers below target.value target.rest).widen target.short

/-- A primary, raised to a power or not. The exponent may have signs of its own. -/
def power (below : Option Descent) (ts : List Lexeme) : Except Fault (Reading Expr ts.length) := do
  let base ← primary below ts
  match hrest : base.rest with
  | ⟨.symbol .doubleStar, _⟩ :: after => do
    let inner ← descend below after
    let exponent ← inner.operand after
    grow ((exponent.map (binary .pow base.value)).widen
      (Nat.le_of_lt (base.length_after_lt hrest)))
  | _ => return base

/-- A power under any signs. A `not` may stand only where one fits between the operators. -/
def unaryOrPower (below : Option Descent) (least : Nat) (ts : List Lexeme) :
    Except Fault (Reading Expr ts.length) :=
  match ts with
  | [] => .error (unexpected [])
  | lexeme :: rest =>
    match UnaryOp.ofToken? lexeme.token with
    | none => power below (lexeme :: rest)
    | some .not =>
      if least ≤ Precedence.not then do
        let inner ← descend below rest
        let operand ← inner.expression Precedence.not rest
        grow ((operand.map (unary .not)).widen (Nat.le_succ _))
      else power below (lexeme :: rest)
    | some op => do
      let inner ← descend below rest
      let operand ← inner.operand rest
      grow ((operand.map (unary op)).widen (Nat.le_succ _))

/-- The operands of a chain of one connective, starting behind the first connective. -/
def connectedTo (inner : Descent) (op : Connective) (ts : List Lexeme) :
    Except Fault (Reading (List Expr) ts.length) := do
  let first ← inner.expression (op.precedence + 1) ts
  match hrest : first.rest with
  | lexeme :: after =>
    if Link.ofToken? lexeme.token = some (.connective op) then
      have hshort := first.length_after_lt hrest
      let others ← connectedTo inner op after
      return (others.map (first.value :: ·)).widen (Nat.le_of_lt hshort)
    else return first.map ([·])
  | [] => return first.map ([·])
termination_by ts.length
decreasing_by exact hshort

/-- The comparisons of a chain, starting behind the operator of the first. -/
def comparedTo (inner : Descent) (op : Comparison) (ts : List Lexeme) :
    Except Fault (Reading (List (Comparison × Expr)) ts.length) := do
  let first ← inner.expression (Precedence.comparison + 1) ts
  match hrest : first.rest with
  | lexeme :: after =>
    match Link.ofToken? lexeme.token with
    | some (.comparison following) =>
      have hshort := first.length_after_lt hrest
      let others ← comparedTo inner following after
      return (others.map ((op, first.value) :: ·)).widen (Nat.le_of_lt hshort)
    | _ => return first.map fun operand => [(op, operand)]
  | [] => return first.map fun operand => [(op, operand)]
termination_by ts.length
decreasing_by exact hshort

/-- The node that a link makes of its left operand and of what follows the link. A chain takes
all its links at once and is one descent, which starts before its first link. -/
def extend (below : Option Descent) (left : Expr) (link : Link) (lexeme : Lexeme)
    (rest : List Lexeme) : Except Fault (Reading Expr rest.length) :=
  match link with
  | .arithmetic op => do
    let inner ← descend below rest
    let right ← inner.expression (op.precedence + 1) rest
    grow (right.map (binary op left))
  | .connective op => do
    let inner ← descend below (lexeme :: rest)
    let others ← connectedTo inner op rest
    grow (others.map (connected op <| left :: ·))
  | .comparison op => do
    let inner ← descend below (lexeme :: rest)
    let others ← comparedTo inner op rest
    grow (others.map (compared left))

/-- Links as long as they bind at least so tightly, from the left. -/
def climb (below : Option Descent) (least : Nat) (left : Expr) (ts : List Lexeme) :
    Except Fault (Reading Expr (ts.length + 1)) :=
  match ts with
  | [] => .ok ⟨left, [], Nat.lt_succ_self _⟩
  | lexeme :: rest =>
    match Link.ofToken? lexeme.token with
    | none => .ok ⟨left, lexeme :: rest, Nat.lt_succ_self _⟩
    | some link =>
      if link.precedence < least then .ok ⟨left, lexeme :: rest, Nat.lt_succ_self _⟩
      else do
        let joined ← extend below left link lexeme rest
        have hshort := Nat.lt_succ_of_lt joined.short
        return (← climb below least joined.value joined.rest).widen (Nat.le_succ_of_le hshort)
termination_by ts.length
decreasing_by exact hshort

def expression (below : Option Descent) (least : Nat) (ts : List Lexeme) :
    Except Fault (Reading Expr ts.length) := do
  let first ← unaryOrPower below least ts
  return (← climb below least first.value first.rest).widen first.short

/-- The readers with so many descents left below them. -/
def descent : Nat → Descent
  | 0 => ⟨expression none, unaryOrPower none Precedence.operand⟩
  | depth + 1 =>
    ⟨expression (some (descent depth)), unaryOrPower (some (descent depth)) Precedence.operand⟩

/-- The expressions after a first one that commas precede. A comma may be the last token. -/
def furtherItems (outermost : Descent) (ts : List Lexeme) :
    Except Fault (Reading (List Expr) (ts.length + 1)) :=
  match ts with
  | ⟨.symbol .comma, _⟩ :: rest =>
    if next rest = .eof then .ok ⟨[], rest, Nat.lt_succ_of_lt (Nat.lt_succ_self _)⟩
    else do
      let item ← outermost.expression Precedence.or rest
      have hshort := Nat.lt_succ_of_lt item.short
      let others ← furtherItems outermost item.rest
      return (others.map (item.value :: ·)).widen (Nat.le_succ_of_le hshort)
  | ts => .ok ⟨[], ts, Nat.lt_succ_self _⟩
termination_by ts.length
decreasing_by exact hshort

/-- The expression that all the lexemes make up. At the outermost level a tuple needs no brackets. -/
def ofLexemes (ts : List Lexeme) : Except Fault Expr := do
  let outermost := descent maxDepth
  let first ← outermost.expression Precedence.or ts
  let whole ←
    if next first.rest = .symbol .comma then do
      let others ← furtherItems outermost first.rest
      grow ((others.map (tuple <| first.value :: ·)).widen first.short)
    else pure first
  if next whole.rest = .eof then return whole.value
  else throw (unexpected whole.rest)

def parse (source : String) : Except Fault Expr := do
  ofLexemes (← Lexeme.list source)

end Abacus.Expr
