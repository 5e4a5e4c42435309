import Abacus.Proofs.Reduction

namespace Abacus

/-- What a machine does at a node: it works on the operands that the nodes before it left on a stack. -/
inductive Instruction where
  | push (c : Constant)
  | unary (op : UnaryOp)
  | binary (op : BinaryOp)
  /-- A part that is never evaluated. -/
  | refuse
  deriving DecidableEq, Repr

/-- Why a machine stops before the end of its program. -/
inductive Halt where
  | failure (cause : Failure)
  | missingOperand
  deriving DecidableEq, Repr

namespace Expr

/-- The nodes in the order in which they are evaluated. Whatever is not arithmetic is refused with
nothing in it evaluated. -/
def postorder : Expr → List Expr
  | unary op operand => operand.postorder ++ [unary op operand]
  | binary op left right => left.postorder ++ right.postorder ++ [binary op left right]
  | e => [e]

def instruction : Expr → Instruction
  | constant c => .push c
  | unary op _ => .unary op
  | binary op _ _ => .binary op
  | _ => .refuse

/-- The program of a tree. -/
def instructions (e : Expr) : List Instruction := e.postorder.map instruction

end Expr

variable {raise : Binary64 → Binary64 → Binary64}

theorem UnaryOp.apply_unsupported {op : UnaryOp} (h : op.isArithmetic = false) (x : Binary64) :
    op.apply x = .error (.unsupported .unaryOperator) := by
  cases op with
  | pos | neg => cases h
  | invert | not => rfl

theorem BinaryOp.apply_unsupported {op : BinaryOp} (h : op.isArithmetic = false) (a b : Binary64) :
    op.apply a b raise = .error (.unsupported .binaryOperator) := by
  cases op with
  | bitAnd | bitOr | bitXor | shiftLeft | shiftRight => rfl
  | _ => cases h

namespace Instruction

/-- The stack behind an instruction. The right operand of an operator lies on top of the left one. -/
def step (raise : Binary64 → Binary64 → Binary64) :
    Instruction → List Binary64 → Except Halt (List Binary64)
  | push c, stack =>
    match c.number? with
    | some x => .ok (x :: stack)
    | none => .error (.failure .notANumber)
  | unary op, x :: stack =>
    match op.apply x with
    | .ok v => .ok (v :: stack)
    | .error fault => .error (.failure (.evaluation fault))
  | binary op, b :: a :: stack =>
    match op.apply a b raise with
    | .ok v => .ok (v :: stack)
    | .error fault => .error (.failure (.evaluation fault))
  | refuse, _ => .error (.failure (.evaluation (.unsupported .element)))
  | unary _, [] | binary _, [] | binary _, [_] => .error .missingOperand

/-- The stack behind a program. -/
def run (raise : Binary64 → Binary64 → Binary64) :
    List Instruction → List Binary64 → Except Halt (List Binary64)
  | [], stack => .ok stack
  | i :: program, stack =>
    match i.step raise stack with
    | .ok next => run raise program next
    | .error halt => .error halt

/-- The machine stops at an instruction behind others that it has gone through. -/
def StopsFirst (raise : Binary64 → Binary64 → Binary64) (program : List Instruction)
    (stack : List Binary64) (halt : Halt) : Prop :=
  ∃ front i rest next, program = front ++ i :: rest ∧ run raise front stack = .ok next ∧
    i.step raise next = .error halt

variable {program : List Instruction} {stack : List Binary64} {i : Instruction} {halt : Halt}

@[simp] theorem run_nil : run raise [] stack = .ok stack := rfl

theorem run_cons_ok {next : List Binary64} (h : i.step raise stack = .ok next) :
    run raise (i :: program) stack = run raise program next := by
  simp only [run, h]

theorem run_cons_error (h : i.step raise stack = .error halt) :
    run raise (i :: program) stack = .error halt := by
  simp only [run, h]

/-- A run that stops does so at one instruction, the first that does not go through. -/
theorem run_eq_error_iff : run raise program stack = .error halt ↔
    StopsFirst raise program stack halt := by
  induction program generalizing stack with
  | nil => simp [StopsFirst]
  | cons i program ih =>
    constructor
    · intro h
      cases hstep : i.step raise stack with
      | error other =>
        rw [run_cons_error hstep] at h
        cases h
        exact ⟨[], i, program, stack, by simp, by simp, hstep⟩
      | ok next =>
        rw [run_cons_ok hstep] at h
        obtain ⟨front, j, rest, final, hprogram, hrun, hstop⟩ := ih.1 h
        have hfront : run raise (i :: front) stack = .ok final := by rw [run_cons_ok hstep, hrun]
        exact ⟨i :: front, j, rest, final, by simp [hprogram], hfront, hstop⟩
    · rintro ⟨front, j, rest, final, hprogram, hrun, hstop⟩
      cases front with
      | nil =>
        obtain ⟨rfl, rfl⟩ := List.cons.inj hprogram
        simp only [run_nil, Except.ok.injEq] at hrun
        rw [hrun]
        exact run_cons_error hstop
      | cons k front =>
        obtain ⟨rfl, rfl⟩ := List.cons.inj hprogram
        cases hstep : i.step raise stack with
        | error other =>
          rw [run_cons_error hstep] at hrun
          cases hrun
        | ok next =>
          rw [run_cons_ok hstep] at hrun ⊢
          exact ih.2 ⟨front, j, rest, final, rfl, hrun, hstop⟩

end Instruction

namespace Expr

open Instruction

theorem mem_postorder (e : Expr) : e ∈ e.postorder := by
  fun_cases postorder e <;> simp

variable {op : UnaryOp} {other : BinaryOp} {operand left right : Expr} {a b x : Binary64}

theorem value_unary (h : operand.value raise = .ok x) :
    (unary op operand).value raise = (op.apply x).mapError .evaluation := by
  rw [value, h]
  rfl

theorem value_binary (hleft : left.value raise = .ok a) (hright : right.value raise = .ok b) :
    (binary other left right).value raise = (other.apply a b raise).mapError .evaluation := by
  rw [value, hleft, hright]
  rfl

theorem value_unary_error {failure : Failure} (h : operand.value raise = .error failure) :
    (unary op operand).value raise = .error failure := by
  rw [value, h]
  rfl

theorem value_binary_left {failure : Failure} (h : left.value raise = .error failure) :
    (binary other left right).value raise = .error failure := by
  rw [value, h]
  rfl

theorem value_binary_right {failure : Failure} (hleft : left.value raise = .ok a)
    (hright : right.value raise = .error failure) :
    (binary other left right).value raise = .error failure := by
  rw [value, hleft, hright]
  rfl

@[simp] theorem instructions_unary :
    (unary op operand).instructions = operand.instructions ++ [.unary op] := by
  simp [instructions, postorder, instruction]

@[simp] theorem instructions_binary :
    (binary other left right).instructions =
      left.instructions ++ right.instructions ++ [.binary other] := by
  simp [instructions, postorder, instruction]

/-- What the machine comes to with the program of a tree before another: it goes on behind it with the
value of the tree on the stack, or stops with its failure. -/
def goesOn (raise : Binary64 → Binary64 → Binary64) (value : Except Failure Binary64)
    (program : List Instruction) (stack : List Binary64) : Except Halt (List Binary64) :=
  match value with
  | .ok v => run raise program (v :: stack)
  | .error failure => .error (.failure failure)

theorem run_instructions (e : Expr) (program : List Instruction) (stack : List Binary64) :
    run raise (e.instructions ++ program) stack = goesOn raise (e.value raise) program stack := by
  fun_induction postorder e generalizing program stack with
  | case1 op operand ih =>
    rw [instructions_unary, List.append_assoc, ih]
    cases hoperand : operand.value raise with
    | error failure =>
      rw [value_unary_error hoperand]
      rfl
    | ok x =>
      rw [value_unary hoperand]
      cases happly : op.apply x with
      | error fault => exact run_cons_error (by rw [step, happly])
      | ok v => exact run_cons_ok (by rw [step, happly])
  | case2 op left right ihleft ihright =>
    rw [instructions_binary, List.append_assoc, List.append_assoc, ihleft]
    cases hleft : left.value raise with
    | error failure =>
      rw [value_binary_left hleft]
      rfl
    | ok a =>
      rw [goesOn, ihright]
      cases hright : right.value raise with
      | error failure =>
        rw [value_binary_right hleft hright]
        rfl
      | ok b =>
        rw [value_binary hleft hright]
        cases happly : op.apply a b raise with
        | error fault => exact run_cons_error (by rw [step, happly])
        | ok v => exact run_cons_ok (by rw [step, happly])
  | case3 e hunary hbinary =>
    cases e with
    | constant c =>
      rw [value]
      cases hnumber : c.number? <;> simp [goesOn, run, step, instructions, postorder, instruction, hnumber]
    | unary op operand => exact absurd rfl (hunary op operand)
    | binary op left right => exact absurd rfl (hbinary op left right)
    | _ => rfl

theorem value_eq_ok_iff_run {e : Expr} {v : Binary64} :
    e.value raise = .ok v ↔ run raise e.instructions [] = .ok [v] := by
  have hrun := @run_instructions raise e [] []
  rw [List.append_nil] at hrun
  rw [hrun]
  cases e.value raise <;> simp [goesOn]

theorem value_eq_error_iff_run {e : Expr} {failure : Failure} :
    e.value raise = .error failure ↔ run raise e.instructions [] = .error (.failure failure) := by
  have hrun := @run_instructions raise e [] []
  rw [List.append_nil] at hrun
  rw [hrun]
  cases e.value raise <;> simp [goesOn]

/-- Reducing a tree is running its nodes in postorder on a stack: the value is what is left there, the
failure that of the first node that fails. So a failure on the left hides all on the right and the
operator, and an operator without a meaning is blamed only if its operands have values. -/
theorem value_runs_postorder :
    (∀ (e : Expr) v, e.value raise = .ok v ↔ run raise e.instructions [] = .ok [v]) ∧
    (∀ (e : Expr) failure, e.value raise = .error failure ↔
      StopsFirst raise e.instructions [] (.failure failure)) ∧
    (∀ (op : BinaryOp) (left right : Expr) failure, left.value raise = .error failure →
      (binary op left right).value raise = .error failure) ∧
    (∀ (op : BinaryOp) (left right : Expr) a failure, left.value raise = .ok a →
      right.value raise = .error failure → (binary op left right).value raise = .error failure) ∧
    (∀ (op : BinaryOp) (left right : Expr) a b, op.isArithmetic = false →
      left.value raise = .ok a → right.value raise = .ok b →
      (binary op left right).value raise = .error (.evaluation (.unsupported .binaryOperator))) ∧
    (∀ (op : UnaryOp) (operand : Expr) failure, operand.value raise = .error failure →
      (unary op operand).value raise = .error failure) ∧
    ∀ (op : UnaryOp) (operand : Expr) x, op.isArithmetic = false → operand.value raise = .ok x →
      (unary op operand).value raise = .error (.evaluation (.unsupported .unaryOperator)) := by
  refine ⟨?value, ?failure, ?left, ?right, ?binary, ?operand, ?unary⟩
  case value => exact fun e v => value_eq_ok_iff_run
  case failure =>
    intro e failure
    rw [value_eq_error_iff_run, run_eq_error_iff]
  case left => exact fun op left right failure hleft => value_binary_left hleft
  case right => exact fun op left right a failure hleft hright => value_binary_right hleft hright
  case binary =>
    intro op left right a b hop hleft hright
    rw [value_binary hleft hright, BinaryOp.apply_unsupported hop]
    rfl
  case operand => exact fun op operand failure hoperand => value_unary_error hoperand
  case unary =>
    intro op operand x hop hoperand
    rw [value_unary hoperand, UnaryOp.apply_unsupported hop]
    rfl

/-- In `1 // 0 << ~'a'` the division is blamed, and not the string, which comes after it in the order of
evaluation but before the signs and shifts that are not supported. -/
theorem value_runs_postorder_shift :
    let first := fun (a _ : Binary64) => a
    let one := constant (.int 1)
    let left := binary .floorDiv one (constant (.int 0))
    let right := unary .invert (constant (.str "a"))
    let e := binary .shiftLeft left right
    e.instructions = [.push (.int 1), .push (.int 0), .binary .floorDiv, .push (.str "a"),
        .unary .invert, .binary .shiftLeft] ∧
      one.value first = .ok (.ofNat 1) ∧
      StopsFirst first e.instructions [] (.failure (.evaluation .floorDivisionByZero)) ∧
      e.value first = .error (.evaluation .floorDivisionByZero) ∧
      (binary .pow one right).value first = .error .notANumber ∧
      (binary .bitOr one one).value first = .error (.evaluation (.unsupported .binaryOperator)) ∧
      right.value first = .error .notANumber ∧
      (unary .not one).value first = .error (.evaluation (.unsupported .unaryOperator)) := by
  intro first one left right e
  obtain ⟨_, hfailure, hleft, hright, hbinary, hoperand, hunary⟩ := @value_runs_postorder first
  have hone : one.value first = .ok (.ofNat 1) := rfl
  have hdivision : left.value first = .error (.evaluation .floorDivisionByZero) := by
    have hzero : (Binary64.ofNat 0).isZero := by decide +kernel
    have hrefused : (Binary64.ofNat 1).flooredQuotient (.ofNat 0) = .error .floorDivisionByZero :=
      if_pos hzero
    have hnone : (constant (.int 0)).value first = .ok (.ofNat 0) := rfl
    rw [value_binary hone hnone, BinaryOp.apply, hrefused]
    rfl
  have hstring : (constant (.str "a")).value first = .error .notANumber := rfl
  have hshift := hleft .shiftLeft left right _ hdivision
  have hinverted := hoperand .invert _ _ hstring
  exact ⟨rfl, hone, (hfailure e _).1 hshift, hshift, hright .pow one right _ _ hone hinverted,
    hbinary .bitOr one one _ _ rfl hone hone, hinverted, hunary .not one _ rfl hone⟩

end Expr

end Abacus
