import Abacus.Proofs.Grammar.Exactness
import Abacus.Proofs.Grammar.Nesting
import Abacus.Proofs.Reduction
import Abacus.Proofs.Token.Joining

namespace Abacus

open Lexeme (Written next tokens)
open Abacus.Expr (parse)

/-- The faults of what nests too deeply, in its brackets or as a tree. -/
def Fault.isNesting : Fault → Bool
  | malformed .tooManyBrackets _ | malformed .nestedTooDeeply _ => true
  | _ => false

/-- The text is parsed to the tree, unless it nests too deeply. -/
def ParsesTo (source : String) (e : Expr) : Prop :=
  parse source = .ok e ∨ ∃ fault : Fault, fault.isNesting ∧ parse source = .error fault

/-- Computing the text has this outcome, unless the text nests too deeply. -/
def ComputesTo (source : String) (x : Except Failure Binary64) : Prop :=
  compute source = x ∨
    ∃ fault : Fault, fault.isNesting ∧ compute source = .error (.evaluation fault)

variable {source s t : String} {ts us : List Token} {e f : Expr} {d : Nat}

/-- A text that the grammar derives is parsed to its tree, unless it nests too deeply. -/
theorem parsesTo_of_derives (hwritten : Written ts source.toList)
    (hderives : Derives d .sentence ts e) : ParsesTo source e := by
  rcases hderives.balanced.list_of_written hwritten with ⟨offset, hcrowded⟩ | ⟨ls, hlist, htokens⟩
  · refine .inr ⟨.malformed .tooManyBrackets offset, rfl, ?_⟩
    unfold parse
    rw [hcrowded]
    rfl
  · obtain ⟨us, lexeme, rfl, rfl, hlexeme⟩ := Expr.exists_last htokens
    unfold ParsesTo
    rw [Expr.parse_of_list hlist]
    rcases Expr.ofLexemes_of_derives hderives (show next [lexeme] = .eof from hlexeme) with hok |
      ⟨_, offset, hdeep⟩
    · exact .inl hok
    · exact .inr ⟨.malformed .nestedTooDeeply offset, rfl, hdeep⟩

theorem exists_derives_of_parse (h : parse source = .ok e) :
    ∃ ts, Written ts source.toList ∧ Derives Expr.maxDepth .sentence ts e := by
  obtain ⟨ts, hwritten, _, hderives, _⟩ := Expr.parse_eq_ok_iff.1 h
  exact ⟨ts, hwritten, hderives⟩

theorem toList_enclosed (s : String) : ("(" ++ s ++ ")").toList = '(' :: (s.toList ++ [')']) := by
  simp

theorem written_enclosed (h : Written ts s.toList) :
    Written (.opening .round :: ts ++ [.closing .round]) ("(" ++ s ++ ")").toList := by
  rw [toList_enclosed]
  exact h.enclosed (.blank (List.forall_mem_nil _))

/-- No symbol goes on with a parenthesis. -/
theorem written_symbol_enclosed (sign : Symbol) (h : Written ts s.toList) :
    Written (.symbol sign :: (.opening .round :: ts ++ [.closing .round]))
      (sign.text ++ "(" ++ s ++ ")").toList := by
  have htext : (sign.text ++ "(" ++ s ++ ")").toList = sign.spelling ++ ("(" ++ s ++ ")").toList := by
    simp [Symbol.text]
  have hclear : Text.Clear sign.continues ("(" ++ s ++ ")").toList := by
    rw [toList_enclosed, Text.clear_cons]
    cases sign <;> rfl
  rw [htext]
  exact .token_cons (Token.spells_symbol sign) (written_enclosed h) hclear

theorem written_binary_enclosed (sign : Symbol) (hs : Written ts s.toList) (ht : Written us t.toList) :
    Written (.opening .round :: ts ++ [.closing .round] ++
        .symbol sign :: (.opening .round :: us ++ [.closing .round]))
      ("(" ++ s ++ ")" ++ sign.text ++ "(" ++ t ++ ")").toList := by
  have hwritten := hs.enclosed (written_symbol_enclosed sign ht)
  simpa using hwritten

theorem parsesTo_enclosed (h : parse s = .ok e) : ParsesTo ("(" ++ s ++ ")") e := by
  obtain ⟨ts, hwritten, hderives⟩ := exists_derives_of_parse h
  exact parsesTo_of_derives (written_enclosed hwritten) (hderives.enclosed_as .disjunction).sentence

theorem parsesTo_signed {op : UnaryOp} (hop : op ≠ .not) (h : parse s = .ok e) :
    ParsesTo (op.token.text ++ "(" ++ s ++ ")") (.unary op e) := by
  obtain ⟨ts, hwritten, hderives⟩ := exists_derives_of_parse h
  refine parsesTo_of_derives ?_ (Derives.signed hop (hderives.enclosed_as .signed)).sentence
  cases op with
  | not => exact absurd rfl hop
  | pos => exact written_symbol_enclosed .plus hwritten
  | neg => exact written_symbol_enclosed .minus hwritten
  | invert => exact written_symbol_enclosed .tilde hwritten

theorem parsesTo_binary (op : BinaryOp) (hs : parse s = .ok e) (ht : parse t = .ok f) :
    ParsesTo ("(" ++ s ++ ")" ++ op.symbol.text ++ "(" ++ t ++ ")") (.binary op e f) := by
  obtain ⟨ts, hwrittenLeft, hderivesLeft⟩ := exists_derives_of_parse hs
  obtain ⟨us, hwrittenRight, hderivesRight⟩ := exists_derives_of_parse ht
  exact parsesTo_of_derives (written_binary_enclosed op.symbol hwrittenLeft hwrittenRight)
    (.operation op hderivesLeft.enclosed hderivesRight.enclosed)

theorem ParsesTo.computesTo (h : ParsesTo source e) :
    ComputesTo source (if e.isArithmetic then e.value else .error .invalidStructure) := by
  rcases h with hparse | ⟨fault, hnesting, hparse⟩
  · exact .inl (compute_of_ok hparse)
  · exact .inr ⟨fault, hnesting, compute_of_error hparse⟩

/-- An operator between values is applied to them, if it is arithmetic at all. -/
theorem binary_outcome (op : BinaryOp) {v w : Binary64} (he : e.value = .ok v) (hf : f.value = .ok w) :
    (if (Expr.binary op e f).isArithmetic then (Expr.binary op e f).value
      else .error .invalidStructure) =
    if op.isArithmetic then (op.apply v w).mapError .evaluation else .error .invalidStructure := by
  rw [Expr.isArithmetic, Expr.isArithmetic_of_value he, Expr.isArithmetic_of_value hf, Bool.and_true,
    Bool.and_true, Expr.value, he, hf]
  rfl

/-- Texts put together are parsed to their trees put together, and computed to their values put
together. -/
theorem parse_compositional (hs : parse s = .ok e) (ht : parse t = .ok f) :
    ParsesTo ("(" ++ s ++ ")") e ∧
      (∀ op : UnaryOp, op ≠ .not → ParsesTo (op.token.text ++ "(" ++ s ++ ")") (.unary op e)) ∧
      (∀ op : BinaryOp,
        ParsesTo ("(" ++ s ++ ")" ++ op.symbol.text ++ "(" ++ t ++ ")") (.binary op e f)) ∧
      ∀ v w, compute s = .ok v → compute t = .ok w → ∀ op : BinaryOp,
        ComputesTo ("(" ++ s ++ ")" ++ op.symbol.text ++ "(" ++ t ++ ")")
          (if op.isArithmetic then (op.apply v w).mapError .evaluation
            else .error .invalidStructure) := by
  refine ⟨parsesTo_enclosed hs, fun op hop => parsesTo_signed hop hs,
    fun op => parsesTo_binary op hs ht, ?_⟩
  intro v w hv hw op
  have hvalue {source : String} {e : Expr} {v : Binary64} (hparse : parse source = .ok e)
      (h : compute source = .ok v) : e.value = .ok v := by
    obtain ⟨other, hother, hvalue⟩ := compute_eq_ok_iff.1 h
    rw [hparse] at hother
    cases hother
    exact hvalue
  have hcomputes := (parsesTo_binary op hs ht).computesTo
  rwa [binary_outcome op (hvalue hs hv) (hvalue ht hw)] at hcomputes

theorem ParsesTo.eq_ok (h : ParsesTo source e) (hok : (parse source).toOption.isSome) :
    parse source = .ok e := by
  refine h.resolve_right ?_
  rintro ⟨fault, _, herror⟩
  rw [herror] at hok
  cases hok

theorem ComputesTo.eq {x : Except Failure Binary64} (h : ComputesTo source x)
    (hok : (compute source).toOption.isSome) : compute source = x := by
  refine h.resolve_right ?_
  rintro ⟨fault, _, herror⟩
  rw [herror] at hok
  cases hok

theorem parse_compositional_difference :
    ∃ e f, parse "2 - 1" = .ok e ∧ parse "3" = .ok f ∧ compute "2 - 1" = .ok (.ofNat 1) ∧
      compute "3" = .ok (.ofNat 3) ∧ UnaryOp.neg ≠ .not ∧ parse "(2 - 1)" = .ok e ∧
      parse "-(2 - 1)" = .ok (.unary .neg e) ∧
      parse "(2 - 1)<<(3)" = .ok (.binary .shiftLeft e f) ∧
      compute "(2 - 1)*(3)" = .ok (.ofNat 1 * .ofNat 3) := by
  have hleft : compute "2 - 1" = .ok (.ofNat 1) := by decide +kernel
  have hright : compute "3" = .ok (.ofNat 3) := by decide +kernel
  obtain ⟨e, hs, _⟩ := compute_eq_ok_iff.1 hleft
  obtain ⟨f, ht, _⟩ := compute_eq_ok_iff.1 hright
  obtain ⟨hgroup, hsigned, hbinary, hvalue⟩ := parse_compositional hs ht
  have hneg := (hsigned .neg (by decide)).eq_ok (by decide +kernel)
  have hshift := (hbinary .shiftLeft).eq_ok (by decide +kernel)
  have hproduct := (hvalue _ _ hleft hright .mul).eq (by decide +kernel)
  exact ⟨e, f, hs, ht, hleft, hright, by decide, hgroup.eq_ok (by decide +kernel), hneg, hshift,
    hproduct⟩

end Abacus
