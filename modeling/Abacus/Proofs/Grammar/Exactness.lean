import Mathlib.Data.List.Basic
import Abacus.Proofs.Grammar.Completeness

namespace Abacus

open Lexeme (next tokens nest Written)

theorem Place.eof_notMem {place final : Place} {ts : List Token}
    (h : place.run ts = some final) : .eof ∉ ts := by
  induction ts generalizing place with
  | nil => exact List.not_mem_nil
  | cons t ts ih =>
    rw [run_cons] at h
    obtain ⟨following, hafter, hrun⟩ := Option.bind_eq_some_iff.1 h
    rw [List.mem_cons, not_or]
    refine ⟨?_, ih hrun⟩
    rintro rfl
    cases place <;> cases hafter

theorem Derives.eof_notMem {d : Nat} {ts : List Token} {e : Expr} (h : Derives d .sentence ts e) :
    .eof ∉ ts := by
  rcases h.walks with hrun | hrun
  · exact Place.eof_notMem hrun
  · exact Place.eof_notMem hrun

namespace Expr

variable {source : String} {ls us : List Lexeme} {offset : Nat} {e : Expr}

/-- The lexemes of a text are those of the tokens it is written as, and one for its end. -/
theorem exists_of_list (h : Lexeme.list source = .ok ls) :
    ∃ us offset, ls = us ++ [⟨.eof, offset⟩] ∧ .eof ∉ tokens us ∧
      Written (tokens us) source.toList ∧ nest [] (tokens us) = some [] := by
  obtain ⟨ts, htokens, heof, hwritten, hnest⟩ := Lexeme.written_of_listFrom h
  obtain ⟨us, lexeme, rfl, rfl, hlexeme⟩ := exists_last htokens
  refine ⟨us, lexeme.offset, ?_, heof, hwritten, hnest⟩
  rw [← hlexeme]

theorem parse_of_list (h : Lexeme.list source = .ok ls) : parse source = ofLexemes ls := by
  unfold parse
  rw [h]
  rfl

/-- All tokens before the end are derived, not only some at the front. -/
theorem derives_of_parse (hlist : Lexeme.list source = .ok (us ++ [⟨.eof, offset⟩]))
    (h : parse source = .ok e) :
    Derives maxDepth .sentence (tokens us) e ∧ e.height ≤ maxDepth := by
  rw [parse_of_list hlist] at h
  obtain ⟨used, rest, hused, hend, hderives, hheight⟩ := derives_of_ofLexemes h
  suffices htokens : tokens us = tokens used by
    rw [htokens]
    exact ⟨hderives, hheight⟩
  obtain ⟨us', offset', hus, heof, _, _⟩ := exists_of_list hlist
  obtain ⟨rfl, _⟩ := List.append_inj' hus rfl
  have hall : tokens us ++ [.eof] = tokens used ++ tokens rest := by
    have htokens := congrArg tokens hused
    rwa [Lexeme.tokens_append, Lexeme.tokens_append] at htokens
  cases rest with
  | nil =>
    rw [Lexeme.tokens_nil, List.append_nil] at hall
    have hmem : Token.eof ∈ tokens used := hall ▸ List.mem_append_right _ List.mem_cons_self
    exact absurd hmem hderives.eof_notMem
  | cons lexeme rest =>
    rw [Lexeme.tokens_cons, show lexeme.token = .eof from hend] at hall
    exact ((List.append_cons_inj_of_notMem heof List.not_mem_nil).1 hall).1

/-- A text is parsed exactly if it is written as tokens whose brackets nest and that are derived
within the depth and with a tree that is not too high. -/
theorem parse_eq_ok_iff :
    parse source = .ok e ↔
      ∃ ts, Written ts source.toList ∧ nest [] ts = some [] ∧
        Derives maxDepth .sentence ts e ∧ e.height ≤ maxDepth := by
  constructor
  · intro h
    cases hlist : Lexeme.list source with
    | error fault =>
      unfold parse at h
      rw [hlist] at h
      cases h
    | ok ls =>
      obtain ⟨us, offset, rfl, _, hwritten, hnest⟩ := exists_of_list hlist
      exact ⟨tokens us, hwritten, hnest, derives_of_parse hlist h⟩
  · rintro ⟨ts, hwritten, hnest, hderives, hheight⟩
    obtain ⟨ls, hlist, htokens⟩ := Lexeme.listFrom_of_written hwritten hnest 0
    obtain ⟨us, lexeme, rfl, rfl, hlexeme⟩ := exists_last htokens
    rw [parse_of_list hlist]
    rcases ofLexemes_of_derives hderives (show next [lexeme] = .eof from hlexeme) with hok | ⟨hfits, _⟩
    · exact hok
    · exact absurd ⟨Nat.le_refl _, hheight⟩ hfits

/-- Parsing accepts exactly the grammar, and with exactly its trees. -/
theorem parse_exact (h : Lexeme.list source = .ok ls) :
    ∃ ts, tokens ls = ts ++ [.eof] ∧ ∀ e,
      (parse source = .ok e → ∃ d, Derives d .sentence ts e) ∧
      (∀ d, Derives d .sentence ts e →
        parse source = .ok e ∨
          ∃ offset, parse source = .error (.malformed .nestedTooDeeply offset)) := by
  obtain ⟨us, offset, rfl, _, _, _⟩ := exists_of_list h
  refine ⟨tokens us, Lexeme.tokens_append us _, ?_⟩
  intro e
  constructor
  · intro hparse
    exact ⟨maxDepth, (derives_of_parse h hparse).1⟩
  · intro d hderives
    rw [parse_of_list h]
    rcases ofLexemes_of_derives hderives (show next [⟨.eof, offset⟩] = .eof from rfl) with hok | ⟨_, hdeep⟩
    · exact .inl hok
    · exact .inr hdeep

/-- Powers are tighter than comparisons, and these than `not`; an exponent may have a sign. -/
theorem parse_exact_not_power :
    let source := "not x < 2 ** -y"
    let ts : List Token := [.keyword .not, .name "x", .symbol .less, .int 2, .symbol .doubleStar,
      .symbol .minus, .name "y"]
    let e : Expr := .unary .not (.compared (.name "x")
      [(.less, .binary .pow (.constant (.int 2)) (.unary .neg (.name "y")))])
    Lexeme.list source =
        .ok [⟨.keyword .not, 0⟩, ⟨.name "x", 4⟩, ⟨.symbol .less, 6⟩, ⟨.int 2, 8⟩,
          ⟨.symbol .doubleStar, 10⟩, ⟨.symbol .minus, 13⟩, ⟨.name "y", 14⟩, ⟨.eof, 15⟩] ∧
      Derives 4 .sentence ts e ∧ parse source = .ok e := by
  intro source ts e
  have hlist : Lexeme.list source =
      .ok [⟨.keyword .not, 0⟩, ⟨.name "x", 4⟩, ⟨.symbol .less, 6⟩, ⟨.int 2, 8⟩,
        ⟨.symbol .doubleStar, 10⟩, ⟨.symbol .minus, 13⟩, ⟨.name "y", 14⟩, ⟨.eof, 15⟩] :=
    eq_ok_of_toOption (by decide +kernel)
  have hname {d : Nat} (text : String) {p : Phrase} (hp : p.precedence ≤ Phrase.atom.precedence) :
      Derives d (.phrase p) [.name text] (.name text) :=
    (Derives.name text).loosen hp
  have hexponent : Derives 1 (.phrase .signed) [.symbol .minus, .name "y"] (.unary .neg (.name "y")) :=
    .signed (show UnaryOp.neg ≠ .not by decide) (hname "y" (by decide))
  have hpower := Derives.power ((Derives.constant (.int 2)).loosen (by decide)) hexponent
  have hcompared := Derives.compared (hname "x" (by decide))
    (.lastComparison .less (hpower.loosen (by decide)))
  have hderives : Derives 4 .sentence ts e :=
    .single (Derives.loosen (.not (hcompared.loosen (by decide))) (by decide))
  obtain ⟨us, hus, hparse⟩ := parse_exact hlist
  obtain rfl : ts = us := List.append_cancel_right hus
  refine ⟨hlist, hderives, ((hparse e).2 4 hderives).resolve_right ?_⟩
  rintro ⟨offset, hdeep⟩
  have hok : (parse source).toOption.isSome := by decide +kernel
  rw [hdeep] at hok
  cases hok

end Expr

end Abacus
