import Mathlib.Control.Monad.Basic
import Abacus.Proofs.Brackets.WellNested
import Abacus.Proofs.Token.Joining
import Abacus.Proofs.Token.Layout

namespace Abacus

open Text Token
open Lexeme (Stands Written isSpacing listFrom matchBrackets nest tokens)

/-- Brackets matched along the lexemes of a text that ends at `stop`. -/
def Lexeme.matchAll (stop : Nat) (opened : List Bracket) : List Lexeme → Except Fault (List Lexeme)
  | [] =>
    match opened with
    | [] => .ok [⟨.eof, stop⟩]
    | innermost :: _ => .error (.malformed (.neverClosed innermost) stop)
  | lexeme :: ls =>
    matchBrackets lexeme.offset opened lexeme.token >>= fun stillOpened =>
      (matchAll stop stillOpened ls).map (lexeme :: ·)

/-- Some text that starts like this has lexemes. -/
def Promising (text : List Char) : Prop :=
  ∃ more ls, Lexeme.list (.ofList (text ++ more)) = .ok ls

/-- The first bracket that no text can go on from is refused, where it stands. -/
def Misplaced (source : String) (us : List Lexeme) : Prop :=
  ∃ before lexeme after cause, us = before ++ lexeme :: after ∧
    Blames (tokens before) lexeme.token cause ∧
    Lexeme.list source = .error (.malformed cause lexeme.offset) ∧
    ∃ front c rest, source.toList = front ++ c :: rest ∧ Utf8.size front = lexeme.offset ∧
      Bracket.ofChar? c = some lexeme.token ∧ Promising front ∧ ¬Promising (front ++ [c])

/-- The text could go on, and its end is refused for the innermost bracket that is open there. -/
def Unclosed (source : String) (us : List Lexeme) : Prop :=
  Promising source.toList ∧
    ∃ front innermost inside, tokens us = front ++ .opening innermost :: inside ∧ Balanced inside ∧
      Lexeme.list source = .error (.malformed (.neverClosed innermost) source.utf8ByteSize)

namespace Lexeme

variable {offset stop : Nat} {opened stillOpened : List Bracket} {text more : List Char}
  {lexeme : Lexeme} {ls us before after : List Lexeme} {c : Char} {t : Token} {ts : List Token}
  {source : String}

theorem Stands.listFrom_eq (h : Stands offset us text) (opened : List Bracket) :
    listFrom offset opened text = matchAll (offset + Utf8.size text) opened us := by
  induction h generalizing opened with
  | @blank offset text hblank =>
    rw [Lexeme.listFrom_eq, readNext, scanNext_of_blank hblank]
    cases opened <;> rfl
  | @token offset blanks w rest lexeme us front _ ih =>
    rw [Lexeme.listFrom_eq, readNext, front.scanNext_eq, matchAll]
    dsimp only [bind, Except.bind]
    cases hmatch : matchBrackets lexeme.offset opened lexeme.token with
    | error fault => rfl
    | ok stillOpened =>
      dsimp only [pure, Except.pure]
      rw [if_neg (ne_eof_of_spells front.spells), front.behind_eq, ih, Utf8.size_append _ rest,
        Nat.add_assoc]

theorem Stands.written (h : Stands offset us text) : Written (tokens us) text := by
  induction h with
  | blank hblank => exact .blank hblank
  | token front _ ih => exact .token front.blank front.spells front.ends ih

/-- Before a lexeme stand the tokens before it, and its own word starts there. -/
theorem Stands.exists_front (h : Stands offset (before ++ lexeme :: after) text) :
    ∃ front w rest, text = front ++ (w ++ rest) ∧ offset + Utf8.size front = lexeme.offset ∧
      Spells w lexeme.token ∧ Written (tokens before) front := by
  induction before generalizing offset text with
  | nil =>
    cases h with
    | @token _ blanks w rest _ _ first _ =>
      exact ⟨blanks, w, rest, List.append_assoc _ _ _, first.place.symm, first.spells,
        .blank first.blank⟩
  | cons other before ih =>
    cases h with
    | @token _ blanks w _ _ _ first others =>
      obtain ⟨front, v, rest, rfl, hplace, hspells, hwritten⟩ := ih others
      refine ⟨blanks ++ w ++ front, v, rest, (List.append_assoc _ _ _).symm, ?_, hspells, ?_⟩
      · rw [Utf8.size_append (blanks ++ w), ← Nat.add_assoc]
        exact hplace
      · exact .token first.blank first.spells (scan_of_append first.spells first.ends) hwritten

theorem matchAll_append (h : nest opened (tokens us) = some stillOpened) (vs : List Lexeme) :
    matchAll stop opened (us ++ vs) = (matchAll stop stillOpened vs).map (us ++ ·) := by
  induction us generalizing opened with
  | nil =>
    cases h
    exact (map_nil_append _).symm
  | cons lexeme us ih =>
    obtain ⟨middle, hmatch, hrest⟩ := nest_cons_eq_some h
    rw [List.cons_append, matchAll, matchBrackets_offset hmatch]
    dsimp only [bind, Except.bind]
    rw [ih hrest]
    exact map_append_map [lexeme] us _

/-- Brackets that do not match so far have a first one that does not match. -/
theorem exists_of_nest_eq_none (h : nest opened (tokens us) = none) :
    ∃ before lexeme after stillOpened fault, us = before ++ lexeme :: after ∧
      nest opened (tokens before) = some stillOpened ∧
      matchBrackets lexeme.offset stillOpened lexeme.token = .error fault := by
  induction us generalizing opened with
  | nil => cases h
  | cons lexeme us ih =>
    cases hmatch : matchBrackets lexeme.offset opened lexeme.token with
    | error fault => exact ⟨[], lexeme, us, opened, fault, rfl, rfl, hmatch⟩
    | ok middle =>
      have hhere := matchBrackets_offset hmatch 0
      rw [tokens_cons, nest, hhere] at h
      obtain ⟨before, next, after, stillOpened, fault, rfl, hnest, hnext⟩ := ih h
      refine ⟨lexeme :: before, next, after, stillOpened, fault, rfl, ?_, hnext⟩
      rw [tokens_cons, nest, hhere]
      exact hnest

theorem written_closing (opened : List Bracket) :
    Written (opened.map .closing) (opened.map Bracket.closer) := by
  induction opened with
  | nil => exact .blank (List.forall_mem_nil _)
  | cons bracket opened ih => exact .token_cons (spells_closing bracket) ih fun _ _ => rfl

/-- A text whose brackets match so far can go on with what closes them. -/
theorem promising_of_nest (h : Written ts text) (hnest : nest [] ts = some opened) :
    Promising text := by
  have hclear : Clear prolongs (opened.map Bracket.closer) := by
    cases opened with
    | nil => exact clear_nil
    | cons bracket opened => cases bracket <;> exact clear_cons.2 rfl
  have hwritten := h.append (written_closing opened) hclear
  have hclosed : nest [] (ts ++ opened.map .closing) = some [] := by
    rw [nest_append_eq, hnest]
    exact nest_closing opened
  obtain ⟨ls, hlist, _⟩ := listFrom_of_written hwritten hclosed 0
  refine ⟨opened.map Bracket.closer, ls, ?_⟩
  rw [Lexeme.list, String.toList_ofList]
  exact hlist

theorem prolongs_of_ofChar? (h : Bracket.ofChar? c = some t) : prolongs c = false := by
  unfold Bracket.ofChar? at h
  split at h
  all_goals first | rfl | cases h

theorem ofChar?_opener (bracket : Bracket) :
    Bracket.ofChar? bracket.opener = some (.opening bracket) := by
  cases bracket <;> rfl

theorem ofChar?_closer (bracket : Bracket) :
    Bracket.ofChar? bracket.closer = some (.closing bracket) := by
  cases bracket <;> rfl

/-- A bracket is read wherever it stands. -/
theorem scan_of_ofChar? (h : Bracket.ofChar? c = some t) (more : List Char) :
    Token.scan 0 ([c] ++ more) = .ok (t, more) := by
  apply (spells_ofChar? h).scan
  intro d _
  unfold Bracket.ofChar? at h
  split at h <;> cases h <;> rfl

/-- No text can go on from a bracket that does not match. -/
theorem exists_fault_of_written (h : Written ts text) (hnest : nest opened ts = some stillOpened)
    (hc : Bracket.ofChar? c = some t)
    (hmatch : ∀ place, ∃ fault, matchBrackets place stillOpened t = .error fault)
    (offset : Nat) (more : List Char) :
    ∃ fault, listFrom offset opened (text ++ ([c] ++ more)) = .error fault := by
  -- No token goes on with a bracket, so the tokens before it are read whatever comes behind it.
  have hclear : Clear prolongs ([c] ++ more) := clear_cons.2 (prolongs_of_ofChar? hc)
  induction h generalizing opened offset with
  | @blank text hblank =>
    cases hnest
    obtain ⟨start, _, hlist⟩ :=
      listFrom_step hblank (spells_ofChar? hc) (scan_of_ofChar? hc more) offset stillOpened
    obtain ⟨fault, hfault⟩ := hmatch start
    rw [← List.append_assoc, hlist, hfault]
    exact ⟨fault, rfl⟩
  | @token blanks w rest u us hblank spells ends _ ih =>
    obtain ⟨middle, hmiddle, hrest⟩ := nest_cons_eq_some hnest
    have hends := scan_append spells ends hclear
    obtain ⟨start, stop, hlist⟩ := listFrom_step hblank spells hends offset opened
    obtain ⟨fault, hfault⟩ := ih hrest stop
    refine ⟨fault, ?_⟩
    rw [List.append_assoc, hlist, matchBrackets_offset hmiddle]
    dsimp only [bind, Except.bind]
    rw [hfault]
    rfl

theorem not_promising (h : Written ts text) (hnest : nest [] ts = some stillOpened)
    (hc : Bracket.ofChar? c = some t)
    (hmatch : ∀ place, ∃ fault, matchBrackets place stillOpened t = .error fault) :
    ¬Promising (text ++ [c]) := by
  rintro ⟨more, ls, hlist⟩
  obtain ⟨fault, hfault⟩ := exists_fault_of_written h hnest hc hmatch 0 more
  rw [Lexeme.list, String.toList_ofList, List.append_assoc, hfault] at hlist
  cases hlist

theorem matchBrackets_error_offset {fault : Fault} (h : matchBrackets offset opened t = .error fault)
    (place : Nat) : ∃ other, matchBrackets place opened t = .error other := by
  cases hplace : matchBrackets place opened t with
  | error other => exact ⟨other, rfl⟩
  | ok stillOpened =>
    rw [matchBrackets_offset hplace offset] at h
    cases h

theorem exists_char_of_blames {w : List Char} {cause : Malformation} (h : Blames ts t cause)
    (hspells : Spells w t) : ∃ c, w = [c] ∧ Bracket.ofChar? c = some t := by
  have hshape := hspells.shape
  cases h with
  | crowded => exact ⟨_, hshape, ofChar?_opener _⟩
  | unmatched | mismatched => exact ⟨_, hshape, ofChar?_closer _⟩

theorem list_eq_matchAll (h : Stands 0 us source.toList) :
    Lexeme.list source = matchAll source.utf8ByteSize [] us := by
  rw [Lexeme.list, h.listFrom_eq, Nat.zero_add, ← Text.utf8ByteSize_eq_size]

theorem list_of_nest (h : Stands 0 us source.toList) (hnest : nest [] (tokens us) = some []) :
    Lexeme.list source = .ok (us ++ [⟨.eof, source.utf8ByteSize⟩]) := by
  rw [list_eq_matchAll h, ← List.append_nil us, matchAll_append hnest, List.append_nil]
  rfl

theorem unclosed_of_nest {innermost : Bracket} (h : Stands 0 us source.toList)
    (hnest : nest [] (tokens us) = some (innermost :: opened)) : Unclosed source us := by
  have hlist : Lexeme.list source =
      .error (.malformed (.neverClosed innermost) source.utf8ByteSize) := by
    rw [list_eq_matchAll h, ← List.append_nil us, matchAll_append hnest]
    rfl
  have hpromising := promising_of_nest h.written hnest
  obtain ⟨front, inside, htokens, hinside⟩ := (opens_of_nest hnest).1.exists_inside
  exact ⟨hpromising, front, innermost, inside, htokens, hinside, hlist⟩

theorem misplaced_of_nest (h : Stands 0 us source.toList) (hnest : nest [] (tokens us) = none) :
    Misplaced source us := by
  obtain ⟨before, lexeme, after, stillOpened, fault, rfl, hbefore, hmatch⟩ :=
    exists_of_nest_eq_none hnest
  obtain ⟨cause, rfl, hblames⟩ := blames_of_matchBrackets hbefore hmatch
  obtain ⟨front, w, rest, hsource, hplace, hspells, hwritten⟩ := h.exists_front
  obtain ⟨c, rfl, hc⟩ := exists_char_of_blames hblames hspells
  rw [Nat.zero_add] at hplace
  have hlist : Lexeme.list source = .error (.malformed cause lexeme.offset) := by
    rw [list_eq_matchAll h, matchAll_append hbefore, matchAll, hmatch]
    rfl
  exact ⟨before, lexeme, after, cause, rfl, hblames, hlist, front, c, rest, hsource, hplace, hc,
    promising_of_nest hwritten hbefore,
    not_promising hwritten hbefore hc (matchBrackets_error_offset hmatch)⟩

/-- Brackets are checked exactly: a text of tokens has its lexemes if its brackets are well nested. If
not, the first bracket is refused that no text can go on from, or the end of the text if there is
none. -/
theorem list_checks_brackets (h : scanAll 0 source.toList = .ok ls) :
    ∃ us, ls = us ++ [⟨.eof, source.utf8ByteSize⟩] ∧
      ((∃ found, Lexeme.list source = .ok found) ↔ WellNested (tokens us)) ∧
      (WellNested (tokens us) → Lexeme.list source = .ok ls) ∧
      (¬WellNested (tokens us) → Misplaced source us ∨ Unclosed source us) := by
  obtain ⟨us, rfl, hus⟩ := exists_stands h
  rw [Nat.zero_add, ← Text.utf8ByteSize_eq_size]
  have hok (hwell : WellNested (tokens us)) := list_of_nest hus (nest_eq_some_nil_iff.2 hwell)
  have hfails (hwell : ¬WellNested (tokens us)) : Misplaced source us ∨ Unclosed source us := by
    cases hnest : nest [] (tokens us) with
    | none => exact .inl (misplaced_of_nest hus hnest)
    | some opened =>
      cases opened with
      | nil => exact absurd (nest_eq_some_nil_iff.1 hnest) hwell
      | cons innermost opened => exact .inr (unclosed_of_nest hus hnest)
  refine ⟨us, rfl, ⟨?_, fun hwell => ⟨_, hok hwell⟩⟩, hok, hfails⟩
  rintro ⟨found, hfound⟩
  refine Classical.byContradiction fun hwell => ?_
  rcases hfails hwell with ⟨_, _, _, _, _, _, hlist, _⟩ | ⟨_, _, _, _, _, _, hlist⟩
  · rw [hfound] at hlist
    cases hlist
  · rw [hfound] at hlist
    cases hlist

/-- A bracket in a string is none, and one that closes another kind is refused where it stands. -/
theorem list_checks_brackets_mixed :
    let source := "(')'[1) x"
    let us : List Lexeme := [⟨.opening .round, 0⟩, ⟨.str ")", 1⟩, ⟨.opening .square, 4⟩, ⟨.int 1, 5⟩,
      ⟨.closing .round, 6⟩, ⟨.name "x", 8⟩]
    scanAll 0 source.toList = .ok (us ++ [⟨.eof, 9⟩]) ∧ ¬WellNested (tokens us) ∧
      Lexeme.list source = .error (.malformed (.mismatchedBracket .round .square) 6) ∧
      Misplaced source us := by
  intro source us
  have hscan : scanAll 0 source.toList = .ok (us ++ [⟨.eof, 9⟩]) :=
    eq_ok_of_toOption (by decide +kernel)
  have hlist : Lexeme.list source = .error (.malformed (.mismatchedBracket .round .square) 6) :=
    eq_error_of_map (f := fun _ => ()) (by decide +kernel)
  obtain ⟨vs, hvs, hlisted, _, hfails⟩ := list_checks_brackets hscan
  obtain rfl : us = vs := (List.append_inj' hvs rfl).1
  have hwell : ¬WellNested (tokens us) := by
    intro hwell
    obtain ⟨found, hfound⟩ := hlisted.2 hwell
    rw [hlist] at hfound
    cases hfound
  refine ⟨hscan, hwell, hlist, (hfails hwell).resolve_right ?_⟩
  rintro ⟨_, _, _, _, _, _, hunclosed⟩
  rw [hlist] at hunclosed
  cases hunclosed

end Lexeme

end Abacus
