import Abacus.Expr.Arithmetic
import Abacus.Expr.Value
import Abacus.Proofs.Canonical.Spelling
import Abacus.Proofs.Grammar.Exactness
import Abacus.Proofs.Limits.Frames
import Abacus.Proofs.Token.Joining

namespace Abacus.Expr

open Lexeme (Written maxOpen next tokens)
open Text (clear_nil)
open Text (clear_nil)

/-- The arithmetic check with no more than so many calls inside one another. -/
def isArithmeticWithin : (calls : Nat) → Expr → Option Bool
  | 0, _ => none
  | _ + 1, constant c => some c.number?.isSome
  | calls + 1, unary op operand =>
    if op.isArithmetic then isArithmeticWithin calls operand else some false
  | calls + 1, binary op left right =>
    if op.isArithmetic then
      (isArithmeticWithin calls left).bind fun first =>
        if first then isArithmeticWithin calls right else some false
    else some false
  | _ + 1, _ => some false

/-- The value worked out with no more than so many calls inside one another. -/
def valueWithin : (calls : Nat) → Expr → Option (Except Failure Binary64)
  | 0, _ => none
  | _ + 1, constant c =>
    match c.number? with
    | some x => some (.ok x)
    | none => some (.error .notANumber)
  | calls + 1, unary op operand =>
    (valueWithin calls operand).map fun found => do
      let x ← found
      (op.apply x).mapError .evaluation
  | calls + 1, binary op left right =>
    (valueWithin calls left).bind fun
      | .error failure => some (.error failure)
      | .ok a => (valueWithin calls right).map fun found => do
        let b ← found
        (op.apply a b).mapError .evaluation
  | _ + 1, _ => some (.error (.evaluation (.unsupported .element)))

theorem height_pos (e : Expr) : 0 < e.height := by
  cases e <;> exact Nat.succ_pos _

variable {calls : Nat} {e : Expr} {source : String} {ls : List Lexeme}

theorem isArithmeticWithin_eq (h : e.height ≤ calls) :
    e.isArithmeticWithin calls = some e.isArithmetic := by
  induction calls generalizing e with
  | zero => exact absurd h (Nat.not_le_of_lt e.height_pos)
  | succ calls ih =>
    cases e with
    | unary op operand =>
      have hoperand := ih (Nat.le_of_succ_le_succ h)
      rw [isArithmeticWithin, isArithmetic, hoperand]
      cases op.isArithmetic <;> rfl
    | binary op left right =>
      obtain ⟨hleft, hright⟩ := Nat.max_le.1 (Nat.le_of_succ_le_succ h)
      rw [isArithmeticWithin, isArithmetic, ih hleft, ih hright]
      cases op.isArithmetic
      · rfl
      · cases left.isArithmetic <;> rfl
    | _ => rfl

theorem valueWithin_eq (h : e.height ≤ calls) : e.valueWithin calls = some e.value := by
  induction calls generalizing e with
  | zero => exact absurd h (Nat.not_le_of_lt e.height_pos)
  | succ calls ih =>
    cases e with
    | constant c =>
      rw [valueWithin, value]
      cases c.number? <;> rfl
    | unary op operand =>
      rw [valueWithin, value, ih (Nat.le_of_succ_le_succ h)]
      rfl
    | binary op left right =>
      obtain ⟨hleft, hright⟩ := Nat.max_le.1 (Nat.le_of_succ_le_succ h)
      rw [valueWithin, value, ih hleft, ih hright]
      cases left.value <;> rfl
    | _ => rfl

/-- Whatever the grammar derives from a text, only its tree is parsed, and only within the limits. -/
theorem eq_of_parse_of_nests {us : List Lexeme} {offset n : Nat} {found : Expr}
    (hlist : Lexeme.list source = .ok (us ++ [⟨.eof, offset⟩]))
    (hnests : Nests n .sentence (tokens us) e) (h : parse source = .ok found) :
    found = e ∧ e.height ≤ maxDepth ∧ n ≤ maxDepth := by
  obtain ⟨hderives, hheight⟩ := derives_of_parse hlist h
  obtain ⟨m, hm, hfound⟩ := hderives.exists_nests
  have hend : next [⟨.eof, offset⟩] = .eof := rfl
  rw [parse_of_list hlist] at h
  rcases ofLexemes_of_derives (hnests.derives (Nat.le_refl n)) hend with hok | ⟨_, place, hdeep⟩
  · rw [hok] at h
    cases h
    exact ⟨rfl, hheight, hnests.unique hfound ▸ hm⟩
  · rw [hdeep] at h
    cases h

theorem parse_of_nests {us : List Lexeme} {offset n : Nat}
    (hlist : Lexeme.list source = .ok (us ++ [⟨.eof, offset⟩]))
    (hnests : Nests n .sentence (tokens us) e) (hheight : e.height ≤ maxDepth) (hn : n ≤ maxDepth) :
    parse source = .ok e := by
  have hend : next [⟨.eof, offset⟩] = .eof := rfl
  rw [parse_of_list hlist]
  exact (ofLexemes_of_derives (hnests.derives hn) hend).resolve_right fun hdeep =>
    hdeep.1 ⟨Nat.le_refl _, hheight⟩

/-- A text that the grammar derives is parsed exactly if its tree is no higher than 400 and no place
of its derivation lies inside more than 400 counted constructs. No recursion over a tree that is
parsed goes deeper than 400 calls. -/
theorem parse_limits (source : String) :
    (∀ ls, Lexeme.list source = .ok ls → ∃ ts, tokens ls = ts ++ [.eof] ∧
      ∀ n e, Nests n .sentence ts e →
        ((∃ found, parse source = .ok found) ↔ e.height ≤ 400 ∧ n ≤ 400) ∧
        ∀ found, parse source = .ok found → found = e) ∧
    ∀ e, parse source = .ok e → e.height ≤ 400 ∧
      e.isArithmeticWithin 400 = some e.isArithmetic ∧ e.valueWithin 400 = some e.value := by
  constructor
  · intro ls hlist
    obtain ⟨us, offset, rfl, _, _, _⟩ := exists_of_list hlist
    refine ⟨tokens us, Lexeme.tokens_append us _, fun n e hnests => ⟨⟨?_, ?_⟩, ?_⟩⟩
    · rintro ⟨found, hparse⟩
      exact (eq_of_parse_of_nests hlist hnests hparse).2
    · rintro ⟨hheight, hn⟩
      exact ⟨e, parse_of_nests hlist hnests hheight hn⟩
    · exact fun found hparse => (eq_of_parse_of_nests hlist hnests hparse).1
  · intro e hparse
    obtain ⟨_, _, _, _, hheight⟩ := parse_eq_ok_iff.1 hparse
    exact ⟨hheight, isArithmeticWithin_eq hheight, valueWithin_eq hheight⟩

/-- `1` behind minus signs, the first of which stand in parentheses of their own: `(-(---1))`. -/
def negatedChars (signs : Nat) : (groups : Nat) → List Char
  | 0 => List.replicate signs '-' ++ ['1']
  | groups + 1 => '(' :: ('-' :: negatedChars signs groups ++ [')'])

def negated : (signs : Nat) → Expr
  | 0 => constant (.int 1)
  | signs + 1 => unary .neg (negated signs)

theorem height_negated (signs : Nat) : (negated signs).height = signs + 1 := by
  induction signs with
  | zero => rfl
  | succ signs ih => rw [negated, height, ih]

theorem isArithmetic_negated (signs : Nat) : (negated signs).isArithmetic := by
  induction signs with
  | zero => rfl
  | succ signs ih => exact ih

theorem isArithmeticWithin_negated (signs : Nat) : (negated signs).isArithmeticWithin signs = none := by
  induction signs with
  | zero => rfl
  | succ signs ih => exact ih

/-- The grammar derives the tree from the tokens of the text, and goes so deep in them. -/
def NestsIn (source : String) (n : Nat) (e : Expr) : Prop :=
  ∃ ls ts, Lexeme.list source = .ok ls ∧ tokens ls = ts ++ [.eof] ∧ Nests n .sentence ts e

/-- A sign counts one, and one in parentheses counts two. -/
theorem exists_nests_negated (signs groups : Nat) :
    ∃ ts, Written ts (negatedChars signs groups) ∧ peak ts = groups ∧
      Nests (signs + 2 * groups) (.phrase .signed) ts (negated (signs + groups)) := by
  have hminus {n : Nat} {ts : List Token} {e : Expr} (h : Nests n (.phrase .signed) ts e) :
      Nests (n + 1) (.phrase .signed) (.symbol .minus :: ts) (unary .neg e) :=
    .signed (show UnaryOp.neg ≠ .not by decide) h
  have hwritten {ts : List Token} {text : List Char} (h : Written ts text) :
      Written (.symbol .minus :: ts) ('-' :: text) :=
    .token_cons (Token.spells_symbol .minus) h fun _ _ => rfl
  induction groups with
  | zero =>
    induction signs with
    | zero =>
      have hone : Written [.int 1] (Nat.toDigits 10 1 ++ []) :=
        .token_cons (Token.spells_int (n := 1) (by decide)) (.blank (List.forall_mem_nil _)) clear_nil
      exact ⟨[.int 1], hone, rfl, Nests.signed_of_atom (.constant (.int 1))⟩
    | succ signs ih =>
      obtain ⟨ts, htext, hpeak, hnests⟩ := ih
      exact ⟨.symbol .minus :: ts, hwritten htext, hpeak, hminus hnests⟩
  | succ groups ih =>
    obtain ⟨ts, htext, hpeak, hnests⟩ := ih
    have hinside := Nests.disjunction_of_signed (hminus hnests)
    refine ⟨.opening .round :: (.symbol .minus :: ts) ++ [.closing .round], ?_, ?_, ?_⟩
    · exact (hwritten htext).enclosed (.blank (List.forall_mem_nil _))
    · rw [hinside.balanced.peak_enclosed, peak_cons rfl, hpeak]
    · exact Nests.signed_of_atom (.group hinside)

theorem nestsIn_negated (signs : Nat) {groups : Nat} (h : groups ≤ maxOpen) :
    NestsIn (.ofList (negatedChars signs groups)) (signs + 2 * groups) (negated (signs + groups)) := by
  obtain ⟨ts, hwritten, rfl, hnests⟩ := exists_nests_negated signs groups
  have hwhole := Nests.single hnests.disjunction_of_signed
  have hnest := hwhole.balanced.nest_eq h
  obtain ⟨ls, hlist, htokens⟩ := Lexeme.listFrom_of_written hwritten hnest 0
  refine ⟨ls, ts, ?_, htokens, hwhole⟩
  rwa [Lexeme.list, String.toList_ofList]

/-- The second tree is too high. The last is not, but the grammar goes too deep in its text. -/
theorem parse_limits_signed :
    (NestsIn (.ofList (negatedChars 399 0)) 399 (negated 399) ∧ (negated 399).height = 400 ∧
      parse (.ofList (negatedChars 399 0)) = .ok (negated 399) ∧
      (negated 399).isArithmeticWithin 400 = some true ∧
      (negated 399).isArithmeticWithin 399 = none) ∧
    (NestsIn (.ofList (negatedChars 400 0)) 400 (negated 400) ∧ (negated 400).height = 401 ∧
      ∀ found, parse (.ofList (negatedChars 400 0)) ≠ .ok found) ∧
    (NestsIn (.ofList (negatedChars 200 100)) 400 (negated 300) ∧ (negated 300).height = 301 ∧
      parse (.ofList (negatedChars 200 100)) = .ok (negated 300)) ∧
    NestsIn (.ofList (negatedChars 201 100)) 401 (negated 301) ∧ (negated 301).height = 302 ∧
      ∀ found, parse (.ofList (negatedChars 201 100)) ≠ .ok found := by
  have hlimits (signs groups : Nat) (hroom : groups ≤ maxOpen) :
      ((∃ found, parse (.ofList (negatedChars signs groups)) = .ok found) ↔
        signs + groups < 400 ∧ signs + 2 * groups ≤ 400) ∧
      ∀ found, parse (.ofList (negatedChars signs groups)) = .ok found →
        found = negated (signs + groups) := by
    obtain ⟨ls, ts, hlist, htokens, hnests⟩ := nestsIn_negated signs hroom
    obtain ⟨us, hus, hlimits⟩ := (parse_limits _).1 ls hlist
    obtain rfl := List.append_cancel_right (hus.symm.trans htokens)
    have hthis := hlimits _ _ hnests
    rwa [height_negated] at hthis
  have hparses (signs groups : Nat) (hroom : groups ≤ maxOpen)
      (hlow : signs + groups < 400 ∧ signs + 2 * groups ≤ 400) :
      parse (.ofList (negatedChars signs groups)) = .ok (negated (signs + groups)) := by
    obtain ⟨hiff, honly⟩ := hlimits signs groups hroom
    obtain ⟨found, hfound⟩ := hiff.2 hlow
    rw [hfound, honly found hfound]
  have hfails (signs groups : Nat) (hroom : groups ≤ maxOpen)
      (hhigh : ¬(signs + groups < 400 ∧ signs + 2 * groups ≤ 400)) (found : Expr) :
      parse (.ofList (negatedChars signs groups)) ≠ .ok found :=
    fun hfound => hhigh ((hlimits signs groups hroom).1.1 ⟨found, hfound⟩)
  have hparse := hparses 399 0 (by decide) (by decide)
  have hcalls := ((parse_limits _).2 _ hparse).2.1
  rw [isArithmetic_negated] at hcalls
  exact ⟨⟨nestsIn_negated 399 (Nat.zero_le _), height_negated 399, hparse, hcalls,
      isArithmeticWithin_negated 399⟩,
    ⟨nestsIn_negated 400 (Nat.zero_le _), height_negated 400, hfails 400 0 (by decide) (by decide)⟩,
    ⟨nestsIn_negated 200 (Nat.le_refl _), height_negated 300, hparses 200 100 (by decide) (by decide)⟩,
    nestsIn_negated 201 (Nat.le_refl _), height_negated 301, hfails 201 100 (by decide) (by decide)⟩

end Abacus.Expr
