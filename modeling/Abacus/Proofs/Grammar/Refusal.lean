import Abacus.Proofs.Grammar.Lookahead

namespace Abacus

open Lexeme (next unexpected tokens)

namespace Lexeme

variable {source : String} {ls : List Lexeme} {i j : Nat} {lexeme other : Lexeme}

theorem pairwise_offsets (h : Lexeme.list source = .ok ls) : (ls.map Lexeme.offset).Pairwise (· < ·) := by
  obtain ⟨us, rfl, hus⟩ := exists_stands (scanAll_of_listFrom h)
  rw [List.map_append]
  exact hus.pairwise.2

/-- An offset belongs to one lexeme only. -/
theorem index_unique (h : Lexeme.list source = .ok ls) (hi : ls[i]? = some lexeme)
    (hj : ls[j]? = some other) (hsame : lexeme.offset = other.offset) : i = j := by
  have hdistinct : (ls.map Lexeme.offset).Nodup := (pairwise_offsets h).imp Nat.ne_of_lt
  have hless : i < (ls.map Lexeme.offset).length := by
    rw [List.length_map]
    exact (List.getElem?_eq_some_iff.1 hi).1
  apply (List.getElem?_inj hless hdistinct).1
  rw [List.getElem?_map, List.getElem?_map, hi, hj, Option.map_some, Option.map_some, hsame]

end Lexeme

namespace Expr

variable {source : String} {ls left rest : List Lexeme} {lexeme other : Lexeme} {cause : Malformation}
  {offset : Nat}

/-- What is said of an unexpected token is the same wherever it stands. -/
theorem unexpected_cons (h : unexpected (lexeme :: left) = .malformed cause offset)
    (htoken : other.token = lexeme.token) :
    unexpected (other :: rest) = .malformed cause other.offset := by
  obtain ⟨token, place⟩ := lexeme
  obtain ⟨token', place'⟩ := other
  obtain rfl : token' = token := htoken
  cases token' <;> cases h <;> rfl

/-- What the refusal of lexemes says about all that start with the same tokens. -/
theorem refused_alike (h : ofLexemes ls = .error (.malformed cause offset))
    (hcause : cause = .unexpectedEnd ∨ ∃ t, cause = .unexpectedToken t) :
    ∃ used left, ls = used ++ left ∧ unexpected left = .malformed cause offset ∧
      Begins .sentence (tokens used) ∧
      ∀ others rest, tokens others = tokens used → Alike rest left →
        ofLexemes (others ++ rest) = .error (unexpected rest) := by
  obtain ⟨used, left, result, rfl, hsettles, hpersists⟩ := wholeSentence_heeds ls
  have hresult {others rest : List Lexeme} (hothers : tokens others = tokens used)
      (hrest : Alike rest left) : ofLexemes (others ++ rest) = (result rest).map Prod.fst := by
    rw [ofLexemes_eq_map, hpersists others rest hothers hrest]
  rw [hresult rfl (.refl left)] at h
  cases hsettles with
  | ok value => cases h
  | unexpected hbegins =>
    injection h with hfault
    exact ⟨used, left, rfl, hfault, hbegins, fun _ _ hothers hrest => hresult hothers hrest⟩
  | tooDeep =>
    injection h with hfault
    cases hfault
    rcases hcause with hend | ⟨t, htoken⟩
    · cases hend
    · cases htoken

/-- Whatever begins as a refused text does, with the token at which it is refused too, is refused there. -/
theorem exists_refused (hlist : Lexeme.list source = .ok ls)
    (h : ofLexemes ls = .error (.malformed cause offset))
    (hcause : cause = .unexpectedEnd ∨ ∃ t, cause = .unexpectedToken t) :
    ∃ k lexeme, ls[k]? = some lexeme ∧ unexpected [lexeme] = .malformed cause offset ∧
      Begins .sentence ((tokens ls).take k) ∧
      ∀ ls', (tokens ls).take (k + 1) <+: tokens ls' →
        ∃ other, ls'[k]? = some other ∧ ofLexemes ls' = .error (.malformed cause other.offset) := by
  obtain ⟨used, left, rfl, hfault, hbegins, halike⟩ := refused_alike h hcause
  cases left with
  | nil =>
    -- The end is a lexeme too, and nothing goes past it.
    obtain ⟨us, place, hus, _⟩ := exists_of_list hlist
    obtain ⟨d, more, e, hderives⟩ := hbegins
    rw [List.append_nil] at hus
    refine absurd ?_ hderives.eof_notMem
    rw [hus, Lexeme.tokens_append]
    simp
  | cons lexeme left =>
    have htokens : tokens (used ++ lexeme :: left) = tokens used ++ [lexeme.token] ++ tokens left := by
      simp
    refine ⟨used.length, lexeme, by simp, hfault, ?_, ?_⟩
    · rw [htokens, List.append_assoc, List.take_left' (by simp [tokens])]
      exact hbegins
    · intro ls' hfront
      rw [htokens, List.take_left' (by simp [tokens])] at hfront
      obtain ⟨more, hmore⟩ := hfront
      rw [List.append_assoc] at hmore
      obtain ⟨others, other, rest, rfl, hothers, htoken, _⟩ := exists_split hmore.symm
      have hlength : others.length = used.length := by simpa [tokens] using congrArg List.length hothers
      refine ⟨other, by simp [← hlength], ?_⟩
      rw [halike others (other :: rest) hothers (Alike.cons_iff.2 ⟨other, rest, rfl, htoken⟩)]
      exact congrArg Except.error (unexpected_cons hfault htoken)

/-- Nothing that the grammar derives is refused at a token. -/
theorem ofLexemes_ne_of_derives {d : Nat} {us : List Lexeme} {e : Expr}
    (h : Derives d .sentence (tokens us) e) (hend : next rest = .eof)
    (hcause : cause = .unexpectedEnd ∨ ∃ t, cause = .unexpectedToken t) :
    ofLexemes (us ++ rest) ≠ .error (.malformed cause offset) := by
  intro hrefused
  rcases ofLexemes_of_derives h hend with hok | ⟨_, place, hdeep⟩
  · rw [hrefused] at hok
    cases hok
  · rw [hrefused] at hdeep
    cases hdeep
    rcases hcause with hcause | ⟨t, hcause⟩
    · cases hcause
    · cases hcause

/-- Parsing refuses a text at the first token with which no text can go on. That token alone is named, and
every text with the same tokens up to it is refused there too; the tokens before it are the front of some
that are derived, and with it of none. -/
theorem parse_refuses_first (hlist : Lexeme.list source = .ok ls)
    (h : parse source = .error (.malformed cause offset))
    (hcause : cause = .unexpectedEnd ∨ ∃ t, cause = .unexpectedToken t) :
    ∃ k lexeme, ls[k]? = some lexeme ∧ unexpected [lexeme] = .malformed cause offset ∧
      (∀ j other, ls[j]? = some other → other.offset = offset → j = k) ∧
      (∀ source' ls', Lexeme.list source' = .ok ls' → (tokens ls).take (k + 1) <+: tokens ls' →
        ∃ other, ls'[k]? = some other ∧ parse source' = .error (.malformed cause other.offset)) ∧
      (∃ d more e, Derives d .sentence ((tokens ls).take k ++ more) e) ∧
      ∀ d ts e, Derives d .sentence ts e → ¬(tokens ls).take (k + 1) <+: ts ++ [.eof] := by
  rw [parse_of_list hlist] at h
  obtain ⟨k, lexeme, hk, hfault, hbegins, hrefused⟩ := exists_refused hlist h hcause
  have hoffset : lexeme.offset = offset := by
    rw [unexpected_cons hfault rfl] at hfault
    cases hfault
    rfl
  refine ⟨k, lexeme, hk, hfault, ?_, ?_, hbegins, ?_⟩
  · intro j other hj hsame
    exact Lexeme.index_unique hlist hj hk (hsame.trans hoffset.symm)
  · intro source' ls' hlist' hfront
    rw [parse_of_list hlist']
    exact hrefused ls' hfront
  · intro d ts e hderives hfront
    let us : List Lexeme := ts.map fun token => ⟨token, 0⟩
    have hus : tokens us = ts := by simp [us, tokens, Function.comp_def]
    have hall : tokens (us ++ [⟨.eof, 0⟩]) = ts ++ [.eof] := by rw [Lexeme.tokens_append, hus]; rfl
    rw [← hall] at hfront
    rw [← hus] at hderives
    obtain ⟨other, _, herror⟩ := hrefused _ hfront
    exact ofLexemes_ne_of_derives hderives rfl hcause herror

theorem parse_refuses_first_not :
    let ls : List Lexeme := [⟨.int 1, 0⟩, ⟨.symbol .plus, 2⟩, ⟨.keyword .not, 4⟩, ⟨.name "x", 8⟩, ⟨.eof, 9⟩]
    Lexeme.list "1 + not x" = .ok ls ∧
      parse "1 + not x" = .error (.malformed (.unexpectedToken (.keyword .not)) 4) ∧
      (∃ d more e, Derives d .sentence ([.int 1, .symbol .plus] ++ more) e) ∧
      ∀ d ts e, Derives d .sentence ts e → ¬[.int 1, .symbol .plus, .keyword .not] <+: ts ++ [.eof] := by
  intro ls
  have hlist : Lexeme.list "1 + not x" = .ok ls := eq_ok_of_toOption (by decide +kernel)
  have hparse : parse "1 + not x" = .error (.malformed (.unexpectedToken (.keyword .not)) 4) :=
    eq_error_of_map (f := fun _ => ()) (by decide +kernel)
  obtain ⟨k, lexeme, hk, hfault, hunique, _, hfront, hnone⟩ :=
    parse_refuses_first hlist hparse (.inr ⟨_, rfl⟩)
  obtain rfl := hunique 2 ⟨.keyword .not, 4⟩ rfl rfl
  exact ⟨hlist, hparse, hfront, hnone⟩

end Expr

end Abacus
