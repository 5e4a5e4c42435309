import Abacus.Proofs.Canonical.Spelling
import Abacus.Proofs.Cleaning

namespace Abacus

open Text Token
open Lexeme (Written)
open Abacus.Expr (parse Evaluates)

/-- The tokens whose spellings are in the alphabet. -/
def Token.isSpellable : Token → Bool
  | int n => 0 ≤ n
  | float _ => true
  | symbol sign => sign.spelling.all inAlphabet
  | opening bracket => inAlphabet bracket.opener
  | closing bracket => inAlphabet bracket.closer
  | _ => false

/-- The trees of numbers and `...` under signs, the operators of the alphabet, and parentheses: these
may also stand empty, or behind an expression, where they make a call of it. -/
inductive Expr.Elementary : Expr → Prop where
  | int {n} (nonneg : 0 ≤ n) : Elementary (.constant (.int n))
  | float (x : Binary64) : Elementary (.constant (.float x))
  | ellipsis : Elementary (.constant .ellipsis)
  | unary {op e} (sign : op ∈ [UnaryOp.pos, .neg]) (operand : Elementary e) :
      Elementary (.unary op e)
  | binary {op e f} (mem : op ∈ [BinaryOp.add, .sub, .mul, .div, .floorDiv, .pow])
      (left : Elementary e) (right : Elementary f) : Elementary (.binary op e f)
  | call {e es} (callee : Elementary e) (few : es.length ≤ 1) (arguments : ∀ f ∈ es, Elementary f) :
      Elementary (.call e es)
  | empty : Elementary (.tuple [])

/-- The failures that a calculation can have. No remainder is among them, and no part of an expression
that the check before the reduction would let through. -/
def Failure.isReachable : Failure → Bool
  | invalidCharacter _ | unbalancedParentheses _ _ | invalidStructure => true
  | notANumber => false
  | evaluation fault =>
    match fault with
    | .malformed _ _ | .intTooLarge => true
    | .divisionByZero | .floorDivisionByZero | .zeroToNegativePower | .complexResult | .overflow =>
      true
    | .moduloByZero | .unsupported _ => false

/-- Only an imaginary literal has a mark. -/
theorem Numeral.isImaginary_of_toToken {n : Numeral} {offset : Nat} {isImaginary : Bool}
    {x : Binary64} (h : n.toToken offset isImaginary = .ok (.imaginary x)) : isImaginary := by
  cases isImaginary with
  | true => rfl
  | false =>
    unfold toToken at h
    rw [if_neg (by decide)] at h
    split at h
    · cases h
    split at h
    · cases h
    split at h
    · cases h
    split at h <;> cases h

theorem Token.exists_mark {text : List Char} (h : (scanImaginaryMark text).1) :
    ∃ c ∈ text, inAlphabet c = false := by
  unfold scanImaginaryMark at h
  split at h
  · exact ⟨'j', List.mem_cons_self, rfl⟩
  · exact ⟨'J', List.mem_cons_self, rfl⟩
  · cases h

/-- The mark of an imaginary literal is not in the alphabet. -/
theorem Token.Spells.exists_foreign {w : List Char} {x : Binary64} (h : Spells w (imaginary x)) :
    ∃ c ∈ w, inAlphabet c = false := by
  cases w with
  | nil => exact absurd rfl h.ne_nil
  | cons c v =>
    have hscan := h.scan 0 [] clear_nil
    rw [List.append_nil] at hscan
    rcases scan_cases hscan with ⟨_, hnumber⟩ | ⟨_, hname, _⟩ | ⟨_, _, _, hstr⟩ | ⟨hbracket, _⟩ |
      ⟨_, _, hsymbol⟩
    · obtain ⟨_, _, htoken⟩ := scanNumber_eq_ok_iff.1 hnumber
      obtain ⟨d, hd, hforeign⟩ := exists_mark (Numeral.isImaginary_of_toToken htoken)
      obtain ⟨front, ⟨hfront, _⟩, _⟩ := Numeral.scan_local (c :: v)
      refine ⟨d, ?_, hforeign⟩
      rw [hfront]
      exact List.mem_append_right front hd
    · unfold ofName at hname
      split at hname <;> cases hname
    · cases hstr
    · unfold Bracket.ofChar? at hbracket
      split at hbracket <;> cases hbracket
    · cases hsymbol

theorem Token.Spells.isSpellable {w : List Char} {t : Token} (h : Spells w t)
    (halphabet : ∀ c ∈ w, inAlphabet c) : t.isSpellable := by
  have hplain := (h.plain fun c hc _ => halphabet c hc).1
  have hshape := h.shape
  cases t with
  | int n => exact decide_eq_true h.readable
  | float => rfl
  | imaginary x =>
    obtain ⟨c, hc, hforeign⟩ := h.exists_foreign
    rw [halphabet c hc] at hforeign
    cases hforeign
  | str | name | keyword => cases hplain
  | symbol sign =>
    subst hshape
    exact List.all_eq_true.2 halphabet
  | opening bracket | closing bracket =>
    subst hshape
    exact halphabet _ List.mem_cons_self
  | eof => cases hshape

theorem Lexeme.Written.isSpellable {ts : List Token} {text : List Char} (h : Written ts text)
    (halphabet : ∀ c ∈ text, inAlphabet c) : ∀ t ∈ ts, t.isSpellable := by
  induction h with
  | blank => simp
  | token _ spells _ _ ih =>
    rw [List.forall_mem_cons]
    exact ⟨spells.isSpellable fun c hc => halphabet c (by simp [hc]),
      ih fun c hc => halphabet c (by simp [hc])⟩

/-- What tokens of the alphabet can make of a category: no comma and no comparison is among them. -/
def Category.Elementary : (c : Category) → c.Tree → Prop
  | phrase _, e | sentence, e => Expr.Elementary e
  | operands _, _ => True
  | comparisons, _ => False
  | items, (es : List Expr) => es.length ≤ 1 ∧ ∀ e ∈ es, e.Elementary

theorem BinaryOp.mem_of_isSpellable {op : BinaryOp} (h : (Token.symbol op.symbol).isSpellable) :
    op ∈ [BinaryOp.add, .sub, .mul, .div, .floorDiv, .pow] := by
  revert h
  cases op <;> decide

theorem UnaryOp.mem_of_isSpellable {op : UnaryOp} (h : op.token.isSpellable) :
    op ∈ [UnaryOp.pos, .neg] := by
  revert h
  cases op <;> decide

theorem Constant.elementary_of_isSpellable {c : Constant} (h : c.token.isSpellable) :
    Expr.Elementary (.constant c) := by
  cases c with
  | int n => exact .int (of_decide_eq_true h)
  | float x => exact .float x
  | ellipsis => exact .ellipsis
  | bool b => cases b <;> cases h
  | _ => cases h

theorem Comparison.not_isSpellable (op : Comparison) :
    (Token.symbol op.symbol).isSpellable = false := by
  cases op <;> rfl

theorem Connective.not_isSpellable (op : Connective) : op.token.isSpellable = false := by
  cases op <;> rfl

/-- A foreign token stands in no text of the alphabet. -/
theorem absurd_of_foreign {ts : List Token} {t : Token} {p : Prop}
    (halphabet : ∀ t ∈ ts, t.isSpellable) (hmem : t ∈ ts) (hforeign : t.isSpellable = false) : p := by
  have hin := halphabet t hmem
  rw [hforeign] at hin
  cases hin

theorem Derives.elementary {d : Nat} {c : Category} {ts : List Token} {e : c.Tree}
    (h : Derives d c ts e) (halphabet : ∀ t ∈ ts, t.isSpellable) : c.Elementary e := by
  induction h with
  | single _ ih | looser _ _ ih => exact ih halphabet
  | lastOperand | operand => trivial
  | bareTuple | item | tuple =>
    exact absurd_of_foreign (t := .symbol .comma) halphabet (by simp) rfl
  | @connected _ op =>
    exact absurd_of_foreign (t := op.token) halphabet (by simp) op.not_isSpellable
  | not => exact absurd_of_foreign (t := .keyword .not) halphabet (by simp) rfl
  | compared _ _ _ ih => exact (ih fun t ht => halphabet t (by simp [ht])).elim
  | lastComparison op | comparison op =>
    exact absurd_of_foreign (t := .symbol op.symbol) halphabet (by simp) op.not_isSpellable
  | @binary _ _ op _ _ _ _ _ _ _ ihleft ihright =>
    exact .binary (BinaryOp.mem_of_isSpellable (halphabet (.symbol op.symbol) (by simp)))
      (ihleft fun t ht => halphabet t (by simp [ht])) (ihright fun t ht => halphabet t (by simp [ht]))
  | @signed _ op _ _ _ _ ih =>
    exact .unary (UnaryOp.mem_of_isSpellable (halphabet op.token (by simp)))
      (ih fun t ht => halphabet t (by simp [ht]))
  | power _ _ ihbase ihexponent =>
    exact .binary (by decide) (ihbase fun t ht => halphabet t (by simp [ht]))
      (ihexponent fun t ht => halphabet t (by simp [ht]))
  | call _ _ ihcallee iharguments =>
    obtain ⟨hfew, harguments⟩ := iharguments fun t ht => halphabet t (by simp [ht])
    exact .call (ihcallee fun t ht => halphabet t (by simp [ht])) hfew harguments
  | subscript | list => exact absurd_of_foreign (t := .opening .square) halphabet (by simp) rfl
  | member text | name text =>
    exact absurd_of_foreign (t := .name text) halphabet (by simp) rfl
  | constant c => exact Constant.elementary_of_isSpellable (halphabet c.token (by simp))
  | empty => exact .empty
  | group _ ih => exact ih fun t ht => halphabet t (by simp [ht])
  | noItem => exact ⟨Nat.zero_le 1, List.forall_mem_nil _⟩
  | lastItem _ ih => exact ⟨Nat.le_refl 1, List.forall_mem_singleton.2 (ih halphabet)⟩

/-- A text that is cleaned is parsed to an elementary tree. -/
theorem elementary_of_parse {raw cleaned : String} {e : Expr} (hclean : clean raw = .ok cleaned)
    (hparse : parse cleaned = .ok e) : e.Elementary := by
  obtain ⟨htext, halphabet⟩ := clean_eq_ok hclean
  obtain ⟨ts, hwritten, _, hderives, _⟩ := Expr.parse_eq_ok_iff.1 hparse
  refine hderives.elementary (hwritten.isSpellable fun c hc => ?_)
  rw [htext] at hc
  obtain ⟨hmem, hsignificant⟩ := List.mem_filter.1 hc
  exact halphabet c hmem (by simpa using hsignificant)

namespace Binary64

theorem flooredQuotient_ne_moduloByZero (a b : Binary64) :
    a.flooredQuotient b ≠ .error .moduloByZero := by
  unfold flooredQuotient
  split
  · exact nofun
  · dsimp only
    split <;> split <;> exact nofun

theorem realPower_ne_moduloByZero (a b : Binary64) : a.realPower b ≠ .error .moduloByZero := by
  unfold realPower
  split
  · exact nofun
  split
  · exact nofun
  split
  · exact nofun
  split
  · exact nofun
  split <;> exact nofun

end Binary64

theorem BinaryOp.apply_ne_moduloByZero {op : BinaryOp}
    (h : op ∈ [BinaryOp.add, .sub, .mul, .div, .floorDiv, .pow]) (a b : Binary64) :
    op.apply a b ≠ .error .moduloByZero := by
  cases op with
  | floorDiv => exact a.flooredQuotient_ne_moduloByZero b
  | pow => exact a.realPower_ne_moduloByZero b
  | div =>
    unfold apply
    dsimp only
    split <;> exact nofun
  | mod => exact absurd h (by decide)
  | _ => exact nofun

/-- An elementary tree has no remainders in it. -/
theorem Expr.Elementary.value_ne_moduloByZero {e : Expr} (h : e.Elementary) :
    e.value ≠ .error (.evaluation .moduloByZero) := by
  induction h with
  | int | float | ellipsis | call | empty => exact nofun
  | @unary op _ _ _ ih =>
    intro hvalue
    rw [Expr.value] at hvalue
    rcases Expr.eq_error_of_bind hvalue with hoperand | ⟨x, _, happly⟩
    · exact ih hoperand
    · cases op <;> cases happly
  | @binary op _ _ mem _ _ ihleft ihright =>
    intro hvalue
    rw [Expr.value] at hvalue
    rcases Expr.eq_error_of_bind hvalue with hleft | ⟨a, _, hrest⟩
    · exact ihleft hleft
    rcases Expr.eq_error_of_bind hrest with hright | ⟨b, _, happly⟩
    · exact ihright hright
    · exact op.apply_ne_moduloByZero mem a b (Expr.eq_error_of_mapError happly)

theorem isReachable_of_clean {raw : String} {failure : Failure} (h : clean raw = .error failure) :
    failure.isReachable := by
  cases clean_eq_iff.1 h with
  | foreign | unbalanced => rfl

/-- Computing what was cleaned takes no remainder, so there is none by zero either. -/
theorem compute_ne_moduloByZero {source : String}
    (helementary : ∀ e, parse source = .ok e → e.Elementary) :
    compute source ≠ .error (.evaluation .moduloByZero) := by
  intro h
  cases hparse : parse source with
  | error fault =>
    rw [compute_of_error hparse] at h
    cases h
    cases Expr.inText_of_parse hparse
  | ok e =>
    rw [compute_of_ok hparse] at h
    split at h
    · exact (helementary e hparse).value_ne_moduloByZero h
    · cases h

theorem isReachable_of_compute {source : String} {failure : Failure}
    (helementary : ∀ e, parse source = .ok e → e.Elementary) (h : compute source = .error failure) :
    failure.isReachable := by
  rcases failure_of_compute h with rfl | ⟨fault, hkind, rfl⟩
  · rfl
  cases fault with
  | moduloByZero => exact absurd h (compute_ne_moduloByZero helementary)
  | unsupported => rcases hkind with hkind | hkind <;> cases hkind
  | _ => rfl

theorem isReachable_of_solve {raw : String} {failure : Failure} (h : solve raw = .error failure) :
    failure.isReachable := by
  unfold solve at h
  rcases Expr.eq_error_of_bind h with hclean | ⟨cleaned, hclean, hcompute⟩
  · exact isReachable_of_clean hclean
  · exact isReachable_of_compute (fun e hparse => elementary_of_parse hclean hparse) hcompute

/-- What the calculator's alphabet reaches: a text that is cleaned is parsed to an elementary tree,
and no calculation fails in a way that such a tree does not. -/
theorem elementary_reach :
    (∀ raw cleaned e, clean raw = .ok cleaned → parse cleaned = .ok e → e.Elementary) ∧
      (∀ raw failure, solve raw = .error failure → failure.isReachable) ∧
      ∀ raw, solve raw ≠ .error (.evaluation .moduloByZero) ∧ solve raw ≠ .error .notANumber ∧
        ∀ part, solve raw ≠ .error (.evaluation (.unsupported part)) := by
  refine ⟨fun raw cleaned e => elementary_of_parse, fun raw failure => isReachable_of_solve, ?_⟩
  intro raw
  refine ⟨fun h => ?_, fun h => ?_, fun part h => ?_⟩
  · cases isReachable_of_solve h
  · cases isReachable_of_solve h
  · cases isReachable_of_solve h

theorem elementary_reach_call :
    clean "...( - 1 ) ** ()" = .ok "...(-1)**()" ∧
      ∃ e, parse "...(-1)**()" = .ok e ∧ e.Elementary ∧
        solve "...( - 1 ) ** ()" = .error .invalidStructure ∧
        Failure.invalidStructure.isReachable := by
  have hread : (parse "...(-1)**()").toBool := by decide +kernel
  have hclean : clean "...( - 1 ) ** ()" = .ok "...(-1)**()" := rfl
  have hsolve : solve "...( - 1 ) ** ()" = .error .invalidStructure := by decide +kernel
  cases hparse : parse "...(-1)**()" with
  | error fault =>
    rw [hparse] at hread
    cases hread
  | ok e =>
    exact ⟨hclean, e, rfl, elementary_reach.1 _ _ e hclean hparse, hsolve,
      elementary_reach.2.1 _ _ hsolve⟩

end Abacus
