import Abacus.Expr.Reading
import Abacus.Proofs.Grammar.Phrase

namespace Abacus

open Lexeme (next)

def Level.precedence : Level → Nat
  | bitOr => 5
  | bitXor => 6
  | bitAnd => 7
  | shift => 8
  | sum => 9
  | product => 10

/-- The place of a phrase among all, from the loosest. -/
def Phrase.precedence : Phrase → Nat
  | disjunction => Precedence.or
  | conjunction => Precedence.and
  | negation => Precedence.not
  | comparison => Precedence.comparison
  | binary level => level.precedence
  | signed => Precedence.operand
  | power => Precedence.operand + 1
  | primary => Precedence.operand + 2
  | atom => Precedence.operand + 3

/-- How tightly the left operand of a link binds at least. A chain takes all its operands at once,
so none of them is the same chain. -/
def Link.least : Link → Nat
  | arithmetic op => op.precedence
  | connective op => op.precedence + 1
  | comparison _ => Precedence.comparison + 1

/-- No operator that binds at least so tightly comes next. -/
def Stops (least : Nat) (ts : List Lexeme) : Prop :=
  ∀ link, Link.ofToken? (next ts) = some link → link.precedence < least

/-- A link that comes next can take the phrase as its left operand. -/
def Admits (p : Phrase) (ts : List Lexeme) : Prop :=
  ∀ link, Link.ofToken? (next ts) = some link → link.least ≤ p.precedence

theorem Level.precedence_of_mem {level : Level} {op : BinaryOp} (h : op ∈ level.operators) :
    op.precedence = level.precedence := by
  cases level <;> simp only [operators, List.mem_cons, List.not_mem_nil, or_false] at h
  · subst h; rfl
  · subst h; rfl
  · subst h; rfl
  · rcases h with rfl | rfl <;> rfl
  · rcases h with rfl | rfl <;> rfl
  · rcases h with rfl | rfl | rfl | rfl <;> rfl

theorem Level.precedence_operand (level : Level) :
    level.operand.precedence = level.precedence + 1 := by
  cases level <;> rfl

theorem Connective.precedence_chain (op : Connective) : op.chain.precedence = op.precedence := by
  cases op <;> rfl

theorem Connective.precedence_operand (op : Connective) :
    op.operand.precedence = op.precedence + 1 := by
  cases op <;> rfl

theorem Phrase.precedence_injective {p q : Phrase} (h : p.precedence = q.precedence) : p = q := by
  cases p with
  | binary a =>
    cases q with
    | binary b => cases a <;> cases b <;> first | rfl | exact absurd h (by decide)
    | _ => cases a <;> exact absurd h (by decide)
  | _ =>
    cases q with
    | binary b => cases b <;> exact absurd h (by decide)
    | _ => first | rfl | exact absurd h (by decide)

theorem Phrase.precedence_tighter {p q : Phrase} (h : p.tighter? = some q) :
    q.precedence = p.precedence + 1 := by
  cases p with
  | binary level =>
    cases h
    exact level.precedence_operand
  | atom => cases h
  | _ => cases h; rfl

theorem Phrase.exists_tighter {p q : Phrase} (h : p.precedence < q.precedence) :
    ∃ r, p.tighter? = some r := by
  cases p with
  | atom =>
    cases q with
    | binary level => cases level <;> exact absurd h (by decide)
    | _ => exact absurd h (by decide)
  | _ => exact ⟨_, rfl⟩

theorem Phrase.precedence_disjunction_le (p : Phrase) :
    Phrase.disjunction.precedence ≤ p.precedence := by
  cases p with
  | binary level => cases level <;> decide
  | _ => decide

theorem Phrase.precedence_le_atom (p : Phrase) : p.precedence ≤ Phrase.atom.precedence := by
  cases p with
  | binary level => cases level <;> decide
  | _ => decide

theorem Link.least_le_succ (link : Link) : link.least ≤ link.precedence + 1 := by
  cases link with
  | arithmetic op => exact Nat.le_succ _
  | connective op | comparison op => exact Nat.le_refl _

theorem Link.least_le_operand (link : Link) : link.least ≤ Precedence.operand := by
  cases link with
  | arithmetic op => cases op <;> decide
  | connective op => cases op <;> decide
  | comparison op => exact (by decide : Precedence.comparison + 1 ≤ Precedence.operand)

theorem admits_signed (ts : List Lexeme) : Admits .signed ts := fun link _ => link.least_le_operand

theorem Stops.admits {p : Phrase} {ts : List Lexeme} (h : Stops p.precedence ts) : Admits p ts :=
  fun link hlink => Nat.le_trans link.least_le_succ (h link hlink)

theorem Stops.admits_binary {level : Level} {ts : List Lexeme}
    (h : Stops (level.precedence + 1) ts) : Admits (.binary level) ts := by
  intro link hlink
  have hprecedence := Nat.le_of_lt_succ (h link hlink)
  cases link with
  | arithmetic op => exact hprecedence
  | connective op => cases op <;> cases level <;> decide
  | comparison op =>
    change Precedence.comparison + 1 ≤ level.precedence
    cases level <;> decide

theorem Stops.admits_chain {op : Connective} {ts : List Lexeme} (h : Stops (op.precedence + 1) ts)
    (hend : Link.ofToken? (next ts) ≠ some (.connective op)) : Admits op.chain ts := by
  intro link hlink
  have hprecedence := Nat.le_of_lt_succ (h link hlink)
  rw [hlink] at hend
  cases link with
  | arithmetic other => cases other <;> cases op <;> exact absurd hprecedence (by decide)
  | connective other =>
    cases op <;> cases other
    · exact absurd rfl hend
    · decide
    · exact absurd hprecedence (by decide)
    · exact absurd rfl hend
  | comparison other =>
    change Precedence.comparison ≤ op.precedence at hprecedence
    cases op <;> exact absurd hprecedence (by decide)

theorem Stops.admits_comparison {ts : List Lexeme} (h : Stops (Precedence.comparison + 1) ts)
    (hend : ∀ op, Link.ofToken? (next ts) ≠ some (.comparison op)) : Admits .comparison ts := by
  intro link hlink
  have hprecedence := Nat.le_of_lt_succ (h link hlink)
  cases link with
  | arithmetic op => cases op <;> exact absurd hprecedence (by decide)
  | connective op => cases op <;> decide
  | comparison op => exact absurd hlink (hend op)

theorem BinaryOp.exists_level {op : BinaryOp} (h : op ≠ .pow) :
    ∃ level : Level, op ∈ level.operators := by
  cases op with
  | add | sub => exact ⟨.sum, by decide⟩
  | mul | div | floorDiv | mod => exact ⟨.product, by decide⟩
  | pow => exact absurd rfl h
  | bitAnd => exact ⟨.bitAnd, by decide⟩
  | bitOr => exact ⟨.bitOr, by decide⟩
  | bitXor => exact ⟨.bitXor, by decide⟩
  | shiftLeft | shiftRight => exact ⟨.shift, by decide⟩

theorem Link.ofToken?_symbol {level : Level} {op : BinaryOp} (h : op ∈ level.operators) :
    Link.ofToken? (.symbol op.symbol) = some (.arithmetic op) := by
  cases op with
  | pow => cases level <;> exact absurd h (by decide)
  | _ => rfl

@[simp] theorem Link.ofToken?_connective (op : Connective) :
    Link.ofToken? op.token = some (.connective op) := by
  cases op <;> rfl

@[simp] theorem Link.ofToken?_comparison (op : Comparison) :
    Link.ofToken? (.symbol op.symbol) = some (.comparison op) := by
  cases op <;> rfl

theorem Link.eq_symbol_of_arithmetic {token : Token} {op : BinaryOp}
    (h : Link.ofToken? token = some (.arithmetic op)) :
    op ≠ .pow ∧ token = .symbol op.symbol := by
  cases token with
  | symbol sign => cases sign <;> cases h <;> exact ⟨by decide, rfl⟩
  | keyword word => cases word <;> cases h
  | _ => cases h

theorem Link.eq_token_of_connective {token : Token} {op : Connective}
    (h : Link.ofToken? token = some (.connective op)) : token = op.token := by
  cases token with
  | symbol sign => cases sign <;> cases h
  | keyword word => cases word <;> cases h <;> rfl
  | _ => cases h

theorem Link.eq_symbol_of_comparison {token : Token} {op : Comparison}
    (h : Link.ofToken? token = some (.comparison op)) : token = .symbol op.symbol := by
  cases token with
  | symbol sign => cases sign <;> cases h <;> rfl
  | keyword word => cases word <;> cases h
  | _ => cases h

@[simp] theorem UnaryOp.ofToken?_token (op : UnaryOp) : UnaryOp.ofToken? op.token = some op := by
  cases op <;> rfl

theorem UnaryOp.eq_token {token : Token} {op : UnaryOp} (h : UnaryOp.ofToken? token = some op) :
    token = op.token := by
  cases token with
  | symbol sign => cases sign <;> cases h <;> rfl
  | keyword word =>
    cases word <;> cases h
    rfl
  | _ => cases h

@[simp] theorem Constant.ofToken?_token (c : Constant) :
    Constant.ofToken? c.token = some c := by
  cases c with
  | bool b => cases b <;> rfl
  | _ => rfl

theorem Constant.eq_token {token : Token} {c : Constant} (h : Constant.ofToken? token = some c) :
    token = c.token := by
  cases token with
  | symbol sign =>
    cases sign <;> cases h
    rfl
  | keyword word => cases word <;> cases h <;> rfl
  | opening | closing | name | eof => cases h
  | _ =>
    cases h
    rfl

theorem Derives.loosen {d : Nat} {p q : Phrase} {ts : List Token} {e : Expr}
    (h : Derives d (.phrase q) ts e) (hle : p.precedence ≤ q.precedence) :
    Derives d (.phrase p) ts e := by
  by_cases heq : p.precedence = q.precedence
  · rw [Phrase.precedence_injective heq]
    exact h
  · obtain ⟨r, hr⟩ := Phrase.exists_tighter (Nat.lt_of_le_of_ne hle heq)
    have hprecedence := Phrase.precedence_tighter hr
    exact .looser hr (h.loosen (by omega))
termination_by q.precedence - p.precedence

theorem Derives.deeper {d : Nat} {c : Category} {ts : List Token} {e : c.Tree}
    (h : Derives d c ts e) : Derives (d + 1) c ts e := by
  induction h with
  | single _ ih => exact .single ih
  | bareTuple _ _ ihfirst ihothers => exact .bareTuple ihfirst ihothers
  | looser step _ ih => exact .looser step ih
  | connected _ _ ihfirst ihothers => exact .connected ihfirst ihothers
  | lastOperand _ ih => exact .lastOperand ih
  | operand _ _ ihfirst ihothers => exact .operand ihfirst ihothers
  | not _ ih => exact .not ih
  | compared _ _ ihfirst ihothers => exact .compared ihfirst ihothers
  | lastComparison op _ ih => exact .lastComparison op ih
  | comparison op _ _ ihfirst ihothers => exact .comparison op ihfirst ihothers
  | binary mem _ _ ihleft ihright => exact .binary mem ihleft ihright
  | signed sign _ ih => exact .signed sign ih
  | power _ _ ihbase ihexponent => exact .power ihbase ihexponent
  | call _ _ ihcallee iharguments => exact .call ihcallee iharguments
  | subscript _ _ ihtarget ihindex => exact .subscript ihtarget ihindex
  | member text _ ih => exact .member text ih
  | constant c => exact .constant c
  | name text => exact .name text
  | empty => exact .empty
  | group _ ih => exact .group ih
  | tuple _ _ ihfirst ihothers => exact .tuple ihfirst ihothers
  | list _ ih => exact .list ih
  | noItem => exact .noItem
  | lastItem _ ih => exact .lastItem ih
  | item _ _ ihfirst ihothers => exact .item ihfirst ihothers

/-- More depth than needed does no harm. -/
theorem Derives.deepen {d n : Nat} {c : Category} {ts : List Token} {e : c.Tree}
    (h : Derives d c ts e) (hle : d ≤ n) : Derives n c ts e := by
  induction hle with
  | refl => exact h
  | step _ ih => exact ih.deeper

/-- Whatever is a text by itself, a tuple without parentheses too, is an operand in parentheses. -/
theorem Derives.enclosed {d : Nat} {ts : List Token} {e : Expr} (h : Derives d .sentence ts e) :
    Derives (d + 1) (.phrase .atom) (.opening .round :: ts ++ [.closing .round]) e := by
  cases h with
  | single whole => exact .group whole
  | bareTuple first others => exact .tuple first others

theorem Derives.enclosed_as {d : Nat} {ts : List Token} {e : Expr} (h : Derives d .sentence ts e)
    (p : Phrase) :
    Derives (d + 1) (.phrase p) (.opening .round :: ts ++ [.closing .round]) e :=
  h.enclosed.loosen (Phrase.precedence_le_atom p)

theorem Derives.sentence {d : Nat} {p : Phrase} {ts : List Token} {e : Expr}
    (h : Derives d (.phrase p) ts e) : Derives d .sentence ts e :=
  .single (h.loosen (Phrase.precedence_disjunction_le p))

/-- Between atoms any operator fits. Its right operand is a descent below it, and its left one is not. -/
theorem Derives.operation {d : Nat} (op : BinaryOp) {ts us : List Token} {e f : Expr}
    (hleft : Derives d (.phrase .atom) ts e) (hright : Derives d (.phrase .atom) us f) :
    Derives (d + 1) .sentence (ts ++ .symbol op.symbol :: us) (.binary op e f) := by
  have hloose (p : Phrase) := hright.loosen (Phrase.precedence_le_atom p)
  have hdeep (p : Phrase) := hleft.deeper.loosen (Phrase.precedence_le_atom p)
  by_cases hpow : op = .pow
  · subst hpow
    exact (Derives.power (hdeep .primary) (hloose .signed)).sentence
  · obtain ⟨level, hmem⟩ := BinaryOp.exists_level hpow
    exact (Derives.binary hmem (hdeep _) (hloose _)).sentence

end Abacus
