import Abacus.Proofs.Binary64.Quotient
import Abacus.Proofs.Postorder

namespace Abacus

open Binary64

variable {raise : Binary64 → Binary64 → Binary64} {a b x : Binary64}

namespace Binary64

/-- Of finite numbers, only a negative one has no real power, and only for an exponent with a
fraction. -/
def IsRealPower (raise : Binary64 → Binary64 → Binary64) : Prop :=
  ∀ a b, a.isFinite → b.isFinite → raise a b = nan → a.isBelowZero ∧ b.isIntegral = false

theorem isFinite_or_infinite (h : x ≠ nan) : x.isFinite ∨ ∃ s, x = infinity s := by
  cases x with
  | nan => exact absurd rfl h
  | infinity s => exact .inr ⟨s, rfl⟩
  | finite s i => exact .inl rfl

section Finite

variable (ha : a.isFinite) (hb : b.isFinite)

include ha hb

theorem isFinite_of_flooredRemainder (h : a.flooredRemainder b = .ok x) : x.isFinite := by
  obtain ⟨v, hv⟩ := exists_value?_of_isFinite ha
  obtain ⟨w, hw⟩ := exists_value?_of_isFinite hb
  by_cases hne : w = 0
  · have hzero : b.isZero = true := by rw [isZero_eq hw, decide_eq_true hne]
    rw [flooredRemainder, if_pos hzero] at h
    cases h
  · rw [flooredRemainder_eq hv hw hne] at h
    cases h
    exact isFinite_of_value? (value?_round _ ⟨b, hw⟩ (abs_sub_mul_floor_le hne))

theorem flooredQuotient_ne_nan (hzero : b.isZero = false) (h : a.flooredQuotient b = .ok x) :
    x ≠ nan := by
  obtain ⟨v, hv⟩ := exists_value?_of_isFinite ha
  obtain ⟨w, hw⟩ := exists_value?_of_isFinite hb
  rw [isZero_eq hw, decide_eq_false_iff_not] at hzero
  exact (integralOrInfinite_of_flooredQuotient hv hw hzero h).ne_nan

theorem isFinite_of_realPower (hraise : IsRealPower raise) (h : a.realPower b raise = .ok x) :
    x.isFinite := by
  unfold realPower at h
  rw [ha, hb] at h
  split at h
  · cases h
    rfl
  split at h
  · contradiction
  split at h
  · cases h
  split at h
  · cases h
  rename_i hreal
  split at h
  · cases h
  · rename_i hnotinfinite
    cases h
    refine (isFinite_or_infinite ?_).resolve_right fun ⟨s, hs⟩ => hnotinfinite s hs
    -- A power that is no number was refused before.
    intro hnan
    obtain ⟨hbelow, hfraction⟩ := hraise a b ha hb hnan
    rw [hbelow, hfraction] at hreal
    exact hreal rfl

end Finite

end Binary64

/-- Operators with results past the finite numbers. -/
def BinaryOp.canOverflow : BinaryOp → Bool
  | add | sub | mul | div | floorDiv => true
  | _ => false

namespace BinaryOp

variable {op : BinaryOp}

theorem isZero_of_apply (h : op.apply a b raise = .ok x) (hop : op = div ∨ op = floorDiv) :
    b.isZero = false := by
  rw [← Bool.not_eq_true]
  intro hzero
  rcases hop with rfl | rfl
  · rw [apply, if_pos hzero] at h
    cases h
  · rw [apply, flooredQuotient, if_pos hzero] at h
    cases h

section Finite

variable (hraise : IsRealPower raise) (ha : a.isFinite) (hb : b.isFinite)
  (h : op.apply a b raise = .ok x)

include hraise ha hb h

theorem isFinite_of_apply (hop : op.canOverflow = false) : x.isFinite := by
  cases op with
  | add | sub | mul | div | floorDiv => cases hop
  | mod => exact isFinite_of_flooredRemainder ha hb h
  | pow => exact isFinite_of_realPower ha hb hraise h
  | bitAnd | bitOr | bitXor | shiftLeft | shiftRight => cases h

/-- What an operator makes of finite numbers is a number, if past the finite ones. -/
theorem ne_nan_of_apply : x ≠ nan := by
  obtain ⟨v, hv⟩ := exists_value?_of_isFinite ha
  obtain ⟨w, hw⟩ := exists_value?_of_isFinite hb
  cases op with
  | add =>
    cases h
    exact ne_nan_of_exists_round (exists_add hv hw)
  | sub =>
    cases h
    exact ne_nan_of_exists_round (exists_sub hv hw)
  | mul =>
    cases h
    exact ne_nan_of_exists_round (exists_mul hv hw)
  | div =>
    have hzero := isZero_of_apply h (.inl rfl)
    rw [apply, if_neg (by rw [hzero]; decide)] at h
    cases h
    rw [isZero_eq hw, decide_eq_false_iff_not] at hzero
    exact ne_nan_of_exists_round (exists_div hv hw hzero)
  | floorDiv => exact flooredQuotient_ne_nan ha hb (isZero_of_apply h (.inr rfl)) h
  | mod | pow | bitAnd | bitOr | bitXor | shiftLeft | shiftRight =>
    have hfinite := isFinite_of_apply hraise ha hb h rfl
    rintro rfl
    cases hfinite

end Finite

end BinaryOp

namespace Expr

/-- A value is worked out of the values of all nodes. -/
theorem exists_value_of_mem_postorder {e node : Expr} {v : Binary64} (h : e.value raise = .ok v)
    (hnode : node ∈ e.postorder) : ∃ x, node.value raise = .ok x := by
  fun_induction postorder e generalizing v with
  | case1 op operand ih =>
    obtain ⟨x, hx, _⟩ := exists_of_value_unary h
    rcases List.mem_append.1 hnode with hbelow | hself
    · exact ih hx hbelow
    · rw [List.mem_singleton.1 hself]
      exact ⟨v, h⟩
  | case2 op left right ihleft ihright =>
    obtain ⟨a, b, ha, hb, _⟩ := exists_of_value_binary h
    rcases List.mem_append.1 hnode with hbelow | hself
    · rcases List.mem_append.1 hbelow with hleft | hright
      · exact ihleft ha hleft
      · exact ihright hb hright
    · rw [List.mem_singleton.1 hself]
      exact ⟨v, h⟩
  | case3 e =>
    rw [List.mem_singleton.1 hnode]
    exact ⟨v, h⟩

/-- The literals of a tree are finite numbers. -/
def HasFiniteLiterals (e : Expr) : Prop :=
  ∀ c x, constant c ∈ e.postorder → c.number? = some x → x.isFinite

theorem HasFiniteLiterals.operand {op : UnaryOp} {operand : Expr}
    (h : (unary op operand).HasFiniteLiterals) : operand.HasFiniteLiterals :=
  fun c x hc => h c x (List.mem_append_left _ hc)

theorem HasFiniteLiterals.operands {op : BinaryOp} {left right : Expr}
    (h : (binary op left right).HasFiniteLiterals) :
    left.HasFiniteLiterals ∧ right.HasFiniteLiterals :=
  ⟨fun c x hc => h c x (List.mem_append_left _ (List.mem_append_left _ hc)),
    fun c x hc => h c x (List.mem_append_left _ (List.mem_append_right _ hc))⟩

def HasFiniteValue (raise : Binary64 → Binary64 → Binary64) (e : Expr) : Prop :=
  ∃ x, e.value raise = .ok x ∧ x.isFinite

theorem HasFiniteValue.isFinite {e : Expr} (h : e.HasFiniteValue raise) (hx : e.value raise = .ok x) :
    x.isFinite := by
  obtain ⟨y, hy, hfinite⟩ := h
  rw [hx] at hy
  cases hy
  exact hfinite

/-- A node with finite operands that gives an infinity; if it divides, then not by zero. -/
inductive Overflows (raise : Binary64 → Binary64 → Binary64) : Expr → Prop
  | intro {op : BinaryOp} {left right : Expr} {a b : Binary64} {s : Bool} (hop : op.canOverflow)
      (hleft : left.value raise = .ok a) (ha : a.isFinite)
      (hright : right.value raise = .ok b) (hb : b.isFinite)
      (hzero : op = .div ∨ op = .floorDiv → b.isZero = false)
      (hvalue : (binary op left right).value raise = .ok (infinity s)) :
      Overflows raise (binary op left right)

/-- The nodes up to the first that overflows have finite values. -/
def OverflowsFirst (raise : Binary64 → Binary64 → Binary64) (nodes : List Expr) : Prop :=
  ∃ front node rest, nodes = front ++ node :: rest ∧
    (∀ other ∈ front, other.HasFiniteValue raise) ∧ node.Overflows raise

/-- Nodes with finite values, as far as none before them overflows. -/
def FiniteUnlessOverflow (raise : Binary64 → Binary64 → Binary64) (nodes : List Expr) : Prop :=
  (∀ node ∈ nodes, node.HasFiniteValue raise) ∨ OverflowsFirst raise nodes

theorem FiniteUnlessOverflow.append {xs ys : List Expr} (hx : FiniteUnlessOverflow raise xs)
    (hy : (∀ node ∈ xs, node.HasFiniteValue raise) → FiniteUnlessOverflow raise ys) :
    FiniteUnlessOverflow raise (xs ++ ys) := by
  rcases hx with hfinite | ⟨front, node, rest, rfl, hfront, hnode⟩
  · rcases hy hfinite with hfinite' | ⟨front, node, rest, rfl, hfront, hnode⟩
    · exact .inl (List.forall_mem_append.2 ⟨hfinite, hfinite'⟩)
    · exact .inr ⟨xs ++ front, node, rest, (List.append_assoc _ _ _).symm,
        List.forall_mem_append.2 ⟨hfinite, hfront⟩, hnode⟩
  · exact .inr ⟨front, node, rest ++ ys, List.append_assoc _ _ _, hfront, hnode⟩

theorem HasFiniteValue.finiteUnlessOverflow {e : Expr} (h : e.HasFiniteValue raise) :
    FiniteUnlessOverflow raise [e] := by
  refine .inl fun node hnode => ?_
  rwa [List.mem_singleton.1 hnode]

theorem Overflows.finiteUnlessOverflow {e : Expr} (h : e.Overflows raise) :
    FiniteUnlessOverflow raise [e] :=
  .inr ⟨[], e, [], rfl, List.forall_mem_nil _, h⟩

theorem HasFiniteValue.unary {op : UnaryOp} {operand : Expr} (h : operand.HasFiniteValue raise)
    (hop : op.isArithmetic) : (unary op operand).HasFiniteValue raise := by
  obtain ⟨x, hx, hfinite⟩ := h
  cases op with
  | pos => exact ⟨x, value_unary hx, hfinite⟩
  | neg =>
    obtain ⟨v, hv⟩ := exists_value?_of_isFinite hfinite
    exact ⟨-x, value_unary hx, isFinite_of_value? (value?_neg hv)⟩
  | invert | not => cases hop

/-- One step: from finite operands comes a finite number or an infinity by overflow. -/
theorem binary_finiteUnlessOverflow {op : BinaryOp} {left right : Expr} {v : Binary64}
    (hraise : IsRealPower raise) (hleft : left.HasFiniteValue raise)
    (hright : right.HasFiniteValue raise) (h : (binary op left right).value raise = .ok v) :
    FiniteUnlessOverflow raise [binary op left right] := by
  obtain ⟨a, b, ha, hb, happly⟩ := exists_of_value_binary h
  have hafinite := hleft.isFinite ha
  have hbfinite := hright.isFinite hb
  have hne := op.ne_nan_of_apply hraise hafinite hbfinite happly
  rcases isFinite_or_infinite hne with hfinite | ⟨s, rfl⟩
  · exact HasFiniteValue.finiteUnlessOverflow ⟨v, h, hfinite⟩
  · have hop : op.canOverflow := by
      rw [← Bool.not_eq_false]
      intro hnone
      cases op.isFinite_of_apply hraise hafinite hbfinite happly hnone
    have hzero := op.isZero_of_apply happly
    exact (Overflows.intro hop ha hafinite hb hbfinite hzero h).finiteUnlessOverflow

/-- A whole evaluation meets finite numbers until a node overflows. -/
theorem postorder_finiteUnlessOverflow {e : Expr} {v : Binary64} (hraise : IsRealPower raise)
    (hliterals : e.HasFiniteLiterals) (h : e.value raise = .ok v) :
    FiniteUnlessOverflow raise e.postorder := by
  -- The cases of the check, since of a tree that is not arithmetic nothing is evaluated.
  fun_induction Expr.isArithmetic e generalizing v with
  | case1 c =>
    have hfinite := hliterals c v (mem_postorder _) (number?_of_value h)
    exact HasFiniteValue.finiteUnlessOverflow ⟨v, h, hfinite⟩
  | case2 op operand ih =>
    obtain ⟨x, hx, happly⟩ := exists_of_value_unary h
    apply (ih hliterals.operand hx).append
    intro hfinite
    have hoperand := hfinite _ operand.mem_postorder
    exact (hoperand.unary (op.isArithmetic_of_apply happly)).finiteUnlessOverflow
  | case3 op left right ihleft ihright =>
    obtain ⟨a, b, ha, hb, _⟩ := exists_of_value_binary h
    obtain ⟨hliteralsleft, hliteralsright⟩ := hliterals.operands
    apply ((ihleft hliteralsleft ha).append fun _ => ihright hliteralsright hb).append
    intro hfinite
    obtain ⟨hfiniteleft, hfiniteright⟩ := List.forall_mem_append.1 hfinite
    exact binary_finiteUnlessOverflow hraise (hfiniteleft _ left.mem_postorder)
      (hfiniteright _ right.mem_postorder) h
  | case4 e =>
    rw [value] at h
    · cases h
    all_goals simpa

/-- Of the nodes of a tree with finite literals, the first whose value is not finite is a sum, a
difference, a product or a quotient of finite numbers. Its value is an infinity, which does not come of
dividing by zero. A sign before a finite number leaves it finite, and a remainder or a power of finite
numbers is finite unless its fault is reported. -/
theorem overflows_of_not_finite (hraise : IsRealPower raise) :
    (∀ (e : Expr) v, e.HasFiniteLiterals → e.value raise = .ok v →
      (∀ node ∈ e.postorder, ∃ x, node.value raise = .ok x) ∧
      ((∃ node ∈ e.postorder, ∃ x, node.value raise = .ok x ∧ x.isFinite = false) →
        ∃ front node rest, e.postorder = front ++ node :: rest ∧
          (∀ other ∈ front, other.HasFiniteValue raise) ∧ node.Overflows raise)) ∧
    (∀ (op : UnaryOp) (operand : Expr), op = .pos ∨ op = .neg → operand.HasFiniteValue raise →
      (unary op operand).HasFiniteValue raise) ∧
    ∀ (op : BinaryOp) (left right : Expr), op = .mod ∨ op = .pow → left.HasFiniteValue raise →
      right.HasFiniteValue raise → (binary op left right).HasFiniteValue raise ∨
        ∃ fault : Fault, fault.isArithmetic ∧
          (binary op left right).value raise = .error (.evaluation fault) := by
  refine ⟨?tree, ?sign, ?operation⟩
  case tree =>
    intro e v hliterals h
    refine ⟨fun node hnode => exists_value_of_mem_postorder h hnode, ?_⟩
    rintro ⟨node, hnode, x, hx, hinfinite⟩
    refine (postorder_finiteUnlessOverflow hraise hliterals h).resolve_left fun hfinite => ?_
    have hnone := (hfinite node hnode).isFinite hx
    rw [hinfinite] at hnone
    contradiction
  case sign =>
    intro op operand hop hoperand
    apply hoperand.unary
    rcases hop with rfl | rfl <;> rfl
  case operation =>
    intro op left right hop hleft hright
    obtain ⟨a, hleft, ha⟩ := hleft
    obtain ⟨b, hright, hb⟩ := hright
    have hvalue : (binary op left right).value raise = (op.apply a b raise).mapError .evaluation :=
      value_binary hleft hright
    have harithmetic : op.isArithmetic := by rcases hop with rfl | rfl <;> rfl
    rcases op.apply_reduces harithmetic a b raise with ⟨x, happly⟩ | ⟨fault, hfault, happly⟩
    · have hnone : op.canOverflow = false := by rcases hop with rfl | rfl <;> rfl
      rw [happly] at hvalue
      exact .inl ⟨x, hvalue, op.isFinite_of_apply hraise ha hb happly hnone⟩
    · rw [happly] at hvalue
      exact .inr ⟨fault, hfault, hvalue⟩

/-- In `3 ** 2 / 5e-324 * 0` the quotient is the first that is not finite, and makes the product a NaN.
Squaring stands for the power. -/
theorem overflows_of_not_finite_quotient :
    let square := fun a (_ : Binary64) => a * a
    let power := binary .pow (constant (.int 3)) (constant (.int 2))
    let e := binary .mul (binary .div power (constant (.float (finite false ⟨1, by decide⟩))))
      (constant (.int 0))
    IsRealPower square ∧ e.HasFiniteLiterals ∧ e.value square = .ok nan ∧
      power.HasFiniteValue square ∧ (unary .neg power).HasFiniteValue square ∧
      ∃ front node rest, e.postorder = front ++ node :: rest ∧
        (∀ other ∈ front, other.HasFiniteValue square) ∧ node.Overflows square := by
  intro square power e
  have hsquare : IsRealPower square := by
    intro a _ ha _ hnan
    obtain ⟨v, hv⟩ := exists_value?_of_isFinite ha
    exact absurd hnan (ne_nan_of_exists_round (exists_mul hv hv))
  have hliterals : e.HasFiniteLiterals := by
    intro c x hc hx
    simp only [e, power, postorder, List.mem_append, List.mem_singleton, constant.injEq,
      reduceCtorEq, or_false] at hc
    have hnumber (n : Nat) (hn : (ofNat n).isFinite) (hx : some (ofNat n) = some x) : x.isFinite := by
      rwa [← Option.some.inj hx]
    rcases hc with ((rfl | rfl) | rfl) | rfl
    · exact hnumber 3 (by decide +kernel) hx
    · exact hnumber 2 (by decide +kernel) hx
    · cases hx
      rfl
    · exact hnumber 0 (by decide +kernel) hx
  have hvalue : e.value square = .ok nan := by decide +kernel
  obtain ⟨htree, hsign, hoperation⟩ := overflows_of_not_finite hsquare
  have hnine : power.value square = .ok (.ofNat 9) := by decide +kernel
  have hpower : power.HasFiniteValue square := by
    refine (hoperation .pow _ _ (.inr rfl) ⟨.ofNat 3, rfl, by decide +kernel⟩
      ⟨.ofNat 2, rfl, by decide +kernel⟩).resolve_right ?_
    rintro ⟨fault, _, herror⟩
    rw [hnine] at herror
    cases herror
  exact ⟨hsquare, hliterals, hvalue, hpower, hsign .neg _ (.inr rfl) hpower,
    (htree e nan hliterals hvalue).2 ⟨e, e.mem_postorder, nan, hvalue, rfl⟩⟩

end Expr

end Abacus
