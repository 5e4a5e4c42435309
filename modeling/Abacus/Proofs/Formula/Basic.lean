import Abacus.Expr.Arithmetic
import Abacus.Proofs.Grammar.Binding
import Abacus.Proofs.Token.Literal

namespace Abacus

open Text

abbrev Sign : Type := { op : UnaryOp // op ∈ [UnaryOp.pos, .neg] }

abbrev Operator : Type :=
  { op : BinaryOp // op ∈ [BinaryOp.add, .sub, .mul, .div, .floorDiv, .pow] }

/-- Numbers under the operators of the calculator, each of which is written with parentheses of its own. -/
inductive Formula where
  | integer (n : Nat)
  | point (literal : PointLiteral)
  | signed (sign : Sign) (operand : Formula)
  | binary (op : Operator) (left right : Formula)

namespace Formula

/-- How many operators lie inside one another at most. -/
def levels : Formula → Nat
  | integer _ | point _ => 0
  | signed _ operand => operand.levels + 1
  | binary _ left right => max left.levels right.levels + 1

/-- Integers are written without needless zeros in front. -/
def chars : Formula → List Char
  | integer n => Nat.toDigits 10 n
  | point literal => literal.chars
  | signed sign operand => '(' :: (sign.val.token.spelling ++ (operand.chars ++ [')']))
  | binary op left right => '(' :: (left.chars ++ (op.val.symbol.spelling ++ (right.chars ++ [')'])))

def tree : Formula → Expr
  | integer n => .constant (.ofNat n)
  | point literal => .constant (.float literal.decimal.toBinary64)
  | signed sign operand => .unary sign.val operand.tree
  | binary op left right => .binary op.val left.tree right.tree

def tokens : Formula → List Token
  | integer n => [(Constant.ofNat n).token]
  | point literal => [.float literal.decimal.toBinary64]
  | signed sign operand => .opening .round :: (sign.val.token :: operand.tokens) ++ [.closing .round]
  | binary op left right =>
    .opening .round :: (left.tokens ++ .symbol op.val.symbol :: right.tokens) ++ [.closing .round]

/-- Some integer literal has no finite number near it. -/
def exceedsRange : Formula → Bool
  | integer n => Binary64.leastInfinite ≤ n
  | point _ => false
  | signed _ operand => operand.exceedsRange
  | binary _ left right => left.exceedsRange || right.exceedsRange

theorem isArithmetic_tree (f : Formula) : f.tree.isArithmetic := by
  induction f with
  | integer n =>
    rw [tree, Expr.isArithmetic, Constant.number?_ofNat]
    rfl
  | point => rfl
  | signed sign operand ih =>
    obtain ⟨op, hop⟩ := sign
    rw [tree, Expr.isArithmetic, ih, Bool.and_true]
    cases op with
    | pos | neg => rfl
    | invert | not => exact absurd hop (by decide)
  | binary op left right ihleft ihright =>
    obtain ⟨op, hop⟩ := op
    rw [tree, Expr.isArithmetic, ihleft, ihright, Bool.and_true, Bool.and_true]
    cases op with
    | add | sub | mul | div | floorDiv | pow => rfl
    | _ => exact absurd hop (by decide)

theorem height_tree (f : Formula) : f.tree.height = f.levels + 1 := by
  induction f with
  | integer | point => rfl
  | signed sign operand ih => rw [tree, levels, Expr.height, ih]
  | binary op left right ihleft ihright =>
    rw [tree, levels, Expr.height, ihleft, ihright, Nat.add_max_add_right]

/-- Each level is a pair of parentheses and the right side of an operator. -/
theorem derives (f : Formula) : Derives (2 * f.levels) (.phrase .atom) f.tokens f.tree := by
  induction f with
  | integer n => exact .constant (.ofNat n)
  | point literal => exact .constant (.float _)
  | signed sign operand ih =>
    have hsign : sign.val ≠ .not := by
      intro hnot
      have hmem := sign.property
      rw [hnot] at hmem
      exact absurd hmem (by decide)
    exact (Derives.signed hsign (ih.loosen (by decide))).sentence.enclosed
  | binary op left right ihleft ihright =>
    have hleft := ihleft.deepen (Nat.mul_le_mul_left 2 (Nat.le_max_left _ right.levels))
    have hright := ihright.deepen (Nat.mul_le_mul_left 2 (Nat.le_max_right left.levels _))
    exact (Derives.operation op.val hleft hright).enclosed

end Formula

end Abacus
