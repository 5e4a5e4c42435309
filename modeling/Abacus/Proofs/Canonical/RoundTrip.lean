import Abacus.Proofs.Canonical.Parentheses
import Abacus.Proofs.Grammar.Exactness

namespace Abacus

open Text
open Lexeme (Written isSpacing maxOpen)

namespace Token

theorem continues_space (t : Token) : t.continues ' ' = false := by
  cases t with
  | symbol sign => cases sign <;> rfl
  | _ => rfl

end Token

namespace Lexeme.Written

variable {ts : List Token} {text : List Char}

theorem space (h : Written ts text) : Written ts (' ' :: text) := by
  cases h with
  | blank hblank => exact .blank (List.forall_mem_cons.2 ⟨rfl, hblank⟩)
  | token hblank spells ends others =>
    exact .token (List.forall_mem_cons.2 ⟨rfl, hblank⟩) spells ends others

theorem spaced (h : ∀ t ∈ ts, t.Readable) : Written ts (Token.spaced ts) := by
  have hnone : ∀ c ∈ ([] : List Char), isSpacing c := List.forall_mem_nil _
  induction ts with
  | nil => exact .blank hnone
  | cons t ts ih =>
    obtain ⟨ht, hts⟩ := List.forall_mem_cons.1 h
    have hspells := Token.spells_spelling ht
    cases ts with
    | nil =>
      have hends := hspells.scan 0 [] clear_nil
      have hwritten := Written.token hnone hspells hends (.blank hnone)
      rwa [List.append_nil] at hwritten
    | cons u us =>
      have hends := hspells.scan 0 (' ' :: Token.spaced (u :: us)) (clear_cons.2 t.continues_space)
      exact .token hnone hspells hends (ih hts).space

theorem readable (h : Written ts text) : ∀ t ∈ ts, t.Readable := by
  induction h with
  | blank => simp
  | token _ spells _ _ ih => exact List.forall_mem_cons.2 ⟨spells.readable, ih⟩

end Lexeme.Written

namespace Expr

/-- Writing a parsed tree and parsing what was written gives the tree. -/
theorem parse_canonical {source : String} {e : Expr} (h : parse source = .ok e) :
    parse e.canonical = .ok e := by
  obtain ⟨ts, hwritten, hnest, hderives, hheight⟩ := parse_eq_ok_iff.1 h
  have hlow : peak ts ≤ maxOpen := by
    have hpeak := peak_le_of_nest hnest (Nat.zero_le maxOpen)
    rwa [List.length_nil, Nat.zero_add] at hpeak
  have hprinted : Printed maxDepth maxOpen .sentence e.bareText e :=
    writes_of_derives hderives ⟨hderives.balanced, hlow, hwritten.readable⟩
  refine parse_eq_ok_iff.2 ⟨e.bareText, ?_, ?_, hprinted.1, hheight⟩
  · rw [canonical, String.toList_ofList]
    exact .spaced hprinted.2.readable
  · exact hprinted.2.balanced.nest_eq hprinted.2.low

theorem parse_canonical_group :
    ∃ e, parse "((1) + (2 * 3)) ** -(.5), 'it\\'s'" = .ok e ∧
      e.canonical = "( 1 + 2 * 3 ) ** - 5e-1 , \"it's\"" ∧ parse e.canonical = .ok e := by
  have hread : (parse "((1) + (2 * 3)) ** -(.5), 'it\\'s'").toOption.map canonical =
      some "( 1 + 2 * 3 ) ** - 5e-1 , \"it's\"" := by
    decide +kernel
  obtain ⟨e, hparse, hcanonical⟩ := Option.map_eq_some_iff.1 hread
  have hok := eq_ok_of_toOption hparse
  exact ⟨e, hok, hcanonical, parse_canonical hok⟩

end Expr

end Abacus
