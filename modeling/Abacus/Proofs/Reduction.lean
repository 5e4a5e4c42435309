import Mathlib.Control.Monad.Basic
import Abacus.Calculation
import Abacus.Proofs.Grammar.Soundness

namespace Abacus

open Abacus.Expr (parse)

/-- The faults that come of the numbers, not of the shape of an expression. -/
def Fault.isArithmetic : Fault → Bool
  | divisionByZero | moduloByZero | floorDivisionByZero => true
  | zeroToNegativePower | complexResult | overflow => true
  | _ => false

/-- A number, or a fault of the numbers. -/
def Reduces {α : Type} (x : Except Fault α) : Prop :=
  (∃ v, x = .ok v) ∨ ∃ fault, fault.isArithmetic ∧ x = .error fault

theorem reduces_ok {α : Type} (v : α) : Reduces (.ok v) := .inl ⟨v, rfl⟩

theorem reduces_error {α : Type} {fault : Fault} (h : fault.isArithmetic) :
    Reduces (.error fault : Except Fault α) := .inr ⟨fault, h, rfl⟩

namespace Binary64

theorem flooredRemainder_reduces (a b : Binary64) : Reduces (a.flooredRemainder b) := by
  unfold flooredRemainder
  dsimp only
  split
  · exact reduces_error rfl
  split
  · exact reduces_ok _
  split
  · exact reduces_ok _
  · exact reduces_ok _

theorem flooredQuotient_reduces (a b : Binary64) : Reduces (a.flooredQuotient b) := by
  unfold flooredQuotient
  split
  · exact reduces_error rfl
  · dsimp only
    split
    · split
      · exact reduces_ok _
      · exact reduces_ok _
    · split
      · exact reduces_ok _
      · exact reduces_ok _

theorem realPower_reduces (a b : Binary64) (raise : Binary64 → Binary64 → Binary64) :
    Reduces (a.realPower b raise) := by
  unfold realPower
  split
  · exact reduces_ok _
  split
  · exact reduces_ok _
  split
  · exact reduces_error rfl
  split
  · exact reduces_error rfl
  split
  · exact reduces_error rfl
  · exact reduces_ok _

end Binary64

theorem UnaryOp.apply_reduces {op : UnaryOp} (h : op.isArithmetic) (x : Binary64) :
    Reduces (op.apply x) := by
  cases op with
  | pos | neg => exact reduces_ok _
  | invert | not => cases h

theorem UnaryOp.isArithmetic_of_apply {op : UnaryOp} {x v : Binary64} (h : op.apply x = .ok v) :
    op.isArithmetic := by
  cases op with
  | pos | neg => rfl
  | invert | not => cases h

theorem BinaryOp.apply_reduces {op : BinaryOp} (h : op.isArithmetic) (a b : Binary64)
    (raise : Binary64 → Binary64 → Binary64) : Reduces (op.apply a b raise) := by
  cases op with
  | add | sub | mul => exact reduces_ok _
  | div =>
    dsimp only [apply]
    split
    · exact reduces_error rfl
    · exact reduces_ok _
  | floorDiv => exact Binary64.flooredQuotient_reduces a b
  | mod => exact Binary64.flooredRemainder_reduces a b
  | pow => exact Binary64.realPower_reduces a b raise
  | bitAnd | bitOr | bitXor | shiftLeft | shiftRight => cases h

theorem BinaryOp.isArithmetic_of_apply {op : BinaryOp} {a b v : Binary64}
    {raise : Binary64 → Binary64 → Binary64} (h : op.apply a b raise = .ok v) : op.isArithmetic := by
  cases op with
  | bitAnd | bitOr | bitXor | shiftLeft | shiftRight => cases h
  | _ => rfl

namespace Expr

/-- What reducing comes to: a number, or the arithmetic fault that stopped it. -/
def Evaluates (x : Except Failure Binary64) : Prop :=
  (∃ v, x = .ok v) ∨ ∃ fault : Fault, fault.isArithmetic ∧ x = .error (.evaluation fault)

theorem Evaluates.bind {x : Except Failure Binary64} {f : Binary64 → Except Failure Binary64}
    (hx : Evaluates x) (hf : ∀ v, Evaluates (f v)) : Evaluates (x >>= f) := by
  rcases hx with ⟨v, rfl⟩ | ⟨fault, hfault, rfl⟩
  · exact hf v
  · exact .inr ⟨fault, hfault, rfl⟩

theorem evaluates_of_reduces {x : Except Fault Binary64} (h : Reduces x) :
    Evaluates (x.mapError .evaluation) := by
  rcases h with ⟨v, rfl⟩ | ⟨fault, hfault, rfl⟩
  · exact .inl ⟨v, rfl⟩
  · exact .inr ⟨fault, hfault, rfl⟩

theorem exists_of_bind_eq_ok {α β : Type} {x : Except Failure α} {f : α → Except Failure β} {b : β}
    (h : x >>= f = .ok b) : ∃ a, x = .ok a ∧ f a = .ok b := by
  cases x with
  | error failure => cases h
  | ok a => exact ⟨a, rfl, h⟩

theorem exists_of_mapError_eq_ok {x : Except Fault Binary64} {v : Binary64}
    (h : x.mapError Failure.evaluation = .ok v) : x = .ok v := by
  cases x with
  | error fault => cases h
  | ok w =>
    cases h
    rfl

theorem eq_error_of_bind {α β : Type} {x : Except Failure α} {f : α → Except Failure β}
    {failure : Failure} (h : x >>= f = .error failure) :
    x = .error failure ∨ ∃ a, x = .ok a ∧ f a = .error failure := by
  cases x with
  | error other =>
    cases h
    exact .inl rfl
  | ok a => exact .inr ⟨a, rfl, h⟩

theorem eq_error_of_mapError {x : Except Fault Binary64} {fault : Fault}
    (h : x.mapError Failure.evaluation = .error (.evaluation fault)) : x = .error fault := by
  cases x with
  | error other =>
    cases h
    rfl
  | ok v => cases h

/-- An arithmetic expression has a value unless its numbers do not allow it. -/
theorem evaluates_of_isArithmetic {e : Expr} (h : e.isArithmetic) : Evaluates e.value := by
  fun_induction Expr.isArithmetic e with
  | case1 c =>
    obtain ⟨x, hx⟩ := Option.isSome_iff_exists.1 h
    refine .inl ⟨x, ?_⟩
    rw [value, hx]
  | case2 op operand ih =>
    obtain ⟨hop, hoperand⟩ := Bool.and_eq_true_iff.1 h
    rw [value]
    apply (ih hoperand).bind
    intro x
    exact evaluates_of_reduces (op.apply_reduces hop x)
  | case3 op left right ihleft ihright =>
    obtain ⟨hboth, hright⟩ := Bool.and_eq_true_iff.1 h
    obtain ⟨hop, hleft⟩ := Bool.and_eq_true_iff.1 hboth
    rw [value]
    apply (ihleft hleft).bind
    intro a
    apply (ihright hright).bind
    intro b
    exact evaluates_of_reduces (op.apply_reduces hop a b _)
  | case4 => cases h

section Value

variable {raise : Binary64 → Binary64 → Binary64} {v : Binary64}

theorem number?_of_value {c : Constant} (h : (constant c).value raise = .ok v) :
    c.number? = some v := by
  rw [value] at h
  split at h
  · rename_i hx
    cases h
    exact hx
  · cases h

theorem exists_of_value_unary {op : UnaryOp} {operand : Expr}
    (h : (unary op operand).value raise = .ok v) :
    ∃ x, operand.value raise = .ok x ∧ op.apply x = .ok v := by
  rw [value] at h
  obtain ⟨x, hx, happly⟩ := exists_of_bind_eq_ok h
  exact ⟨x, hx, exists_of_mapError_eq_ok happly⟩

theorem exists_of_value_binary {op : BinaryOp} {left right : Expr}
    (h : (binary op left right).value raise = .ok v) :
    ∃ a b, left.value raise = .ok a ∧ right.value raise = .ok b ∧ op.apply a b raise = .ok v := by
  rw [value] at h
  obtain ⟨a, ha, hrest⟩ := exists_of_bind_eq_ok h
  obtain ⟨b, hb, happly⟩ := exists_of_bind_eq_ok hrest
  exact ⟨a, b, ha, hb, exists_of_mapError_eq_ok happly⟩

/-- Whatever has a value is arithmetic. -/
theorem isArithmetic_of_value {e : Expr} (h : e.value raise = .ok v) : e.isArithmetic := by
  fun_induction Expr.isArithmetic e generalizing v with
  | case1 c =>
    rw [number?_of_value h]
    rfl
  | case2 op operand ih =>
    obtain ⟨x, hx, happly⟩ := exists_of_value_unary h
    rw [op.isArithmetic_of_apply happly, ih hx]
    rfl
  | case3 op left right ihleft ihright =>
    obtain ⟨a, b, ha, hb, happly⟩ := exists_of_value_binary h
    rw [op.isArithmetic_of_apply happly, ihleft ha, ihright hb]
    rfl
  | case4 e =>
    rw [value] at h
    · cases h
    all_goals simpa

end Value

/-- No fault of a text is one that only a tree can have. -/
theorem inText_of_parse {source : String} {fault : Fault} (h : parse source = .error fault) :
    fault.inText := by
  unfold parse at h
  cases hlist : Lexeme.list source with
  | error other =>
    rw [hlist] at h
    cases h
    exact Lexeme.inText_of_listFrom hlist
  | ok ls =>
    rw [hlist] at h
    obtain ⟨left, _, rfl | rfl⟩ := refused_of_ofLexemes h
    · unfold Lexeme.unexpected
      split <;> rfl
    · rfl

end Expr

/-- What computing comes to, without its reports. -/
theorem compute_eq (source : String) :
    compute source = ((parse source).mapError .evaluation >>= fun e =>
      if e.isArithmetic then e.value else .error .invalidStructure) := by
  unfold compute computing
  cases parse source with
  | error fault => rfl
  | ok e =>
    change (if e.isArithmetic then _ else _ : Traced Failure Binary64).outcome =
      if e.isArithmetic then e.value else .error .invalidStructure
    split
    · cases e.value <;> rfl
    · rfl

theorem compute_of_error {source : String} {fault : Fault} (h : parse source = .error fault) :
    compute source = .error (.evaluation fault) := by
  rw [compute_eq, h]
  rfl

theorem compute_of_ok {source : String} {e : Expr} (h : parse source = .ok e) :
    compute source = if e.isArithmetic then e.value else .error .invalidStructure := by
  rw [compute_eq, h]
  rfl

theorem compute_eq_ok_iff {source : String} {v : Binary64} :
    compute source = .ok v ↔ ∃ e, parse source = .ok e ∧ e.value = .ok v := by
  rw [compute_eq]
  cases parse source with
  | error fault =>
    constructor
    · intro h
      cases h
    · rintro ⟨e, h, _⟩
      cases h
  | ok e =>
    change (if e.isArithmetic then e.value else .error .invalidStructure) = .ok v ↔ _
    constructor
    · intro h
      split at h
      · exact ⟨e, rfl, h⟩
      · cases h
    · rintro ⟨f, hf, hvalue⟩
      cases hf
      rw [if_pos (Expr.isArithmetic_of_value hvalue)]
      exact hvalue

/-- Computing fails for the text, for the shape of its tree, or for its numbers. -/
theorem failure_of_compute {source : String} {failure : Failure}
    (h : compute source = .error failure) :
    failure = .invalidStructure ∨
      ∃ fault : Fault, (fault.inText ∨ fault.isArithmetic) ∧ failure = .evaluation fault := by
  rw [compute_eq] at h
  cases hparse : parse source with
  | error fault =>
    rw [hparse] at h
    cases h
    exact .inr ⟨fault, .inl (Expr.inText_of_parse hparse), rfl⟩
  | ok e =>
    rw [hparse] at h
    change (if e.isArithmetic then e.value else .error .invalidStructure) = .error failure at h
    split at h
    · rename_i harithmetic
      rcases Expr.evaluates_of_isArithmetic harithmetic with ⟨v, hvalue⟩ | ⟨fault, hfault, hvalue⟩
      · rw [hvalue] at h
        cases h
      · rw [hvalue] at h
        cases h
        exact .inr ⟨fault, .inr hfault, rfl⟩
    · cases h
      exact .inl rfl

/-- The check and the reduction agree, so that computing reduces just what it parses, and neither
meets a part without a value. -/
theorem isArithmetic_agrees_value :
    (∀ e : Expr,
      (e.isArithmetic →
        (∃ v, e.value = .ok v) ∨
          ∃ fault ∈ [Fault.divisionByZero, .moduloByZero, .floorDivisionByZero,
            .zeroToNegativePower, .complexResult, .overflow], e.value = .error (.evaluation fault)) ∧
      ∀ v, e.value = .ok v → e.isArithmetic) ∧
    (∀ source v, compute source = .ok v ↔ ∃ e, parse source = .ok e ∧ e.value = .ok v) ∧
    ∀ source, compute source ≠ .error .notANumber ∧
      ∀ part, compute source ≠ .error (.evaluation (.unsupported part)) := by
  refine ⟨fun e => ⟨?_, fun v => Expr.isArithmetic_of_value⟩, fun source v => compute_eq_ok_iff, ?_⟩
  · intro h
    rcases Expr.evaluates_of_isArithmetic h with hvalue | ⟨fault, hfault, hvalue⟩
    · exact .inl hvalue
    · refine .inr ⟨fault, ?_, hvalue⟩
      cases fault with
      | malformed | intTooLarge | unsupported => cases hfault
      | _ => decide
  · intro source
    constructor
    · intro h
      rcases failure_of_compute h with hshape | ⟨fault, _, hfault⟩
      · cases hshape
      · cases hfault
    · intro part h
      rcases failure_of_compute h with hshape | ⟨fault, hkind, hfault⟩
      · cases hshape
      · cases hfault
        rcases hkind with hkind | hkind
        · cases hkind
        · cases hkind

/-- A division by zero is arithmetic, and its fault is one of those that arithmetic has. -/
theorem isArithmetic_agrees_value_division :
    let e : Expr := .binary .div (.constant (.int 1)) (.constant (.int 0))
    e.isArithmetic ∧ e.value = .error (.evaluation .divisionByZero) ∧
      .divisionByZero ∈ [Fault.divisionByZero, .moduloByZero, .floorDivisionByZero,
        .zeroToNegativePower, .complexResult, .overflow] := by
  intro e
  have hvalue : e.value = .error (.evaluation .divisionByZero) := by decide +kernel
  refine ⟨rfl, hvalue, ?_⟩
  rcases (isArithmetic_agrees_value.1 e).1 rfl with ⟨v, hv⟩ | ⟨fault, hfault, hother⟩
  · rw [hvalue] at hv
    cases hv
  · rw [hvalue] at hother
    cases hother
    exact hfault

end Abacus
