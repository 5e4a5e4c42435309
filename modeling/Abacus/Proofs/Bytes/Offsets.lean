import Abacus.Proofs.Bytes.Agreement
import Abacus.Proofs.Grammar.Soundness

namespace Abacus.Bytes

open Text Token

variable {source : String} {pos start offset : Nat} {opened : List Bracket} {text rest : List Char}
  {fault : Fault} {cause : Malformation} {t : Token}

/-- How the lexer fails at a place. -/
inductive Fails (start : Nat) (rest : List Char) : Fault → Prop where
  | token {fault : Fault} (scan : Token.scan start rest = .error fault) : Fails start rest fault
  | bracket {opened : List Bracket} {t : Token} {fault : Fault}
      (mismatch : Lexeme.matchBrackets start opened t = .error fault) : Fails start rest fault
  | unclosed (innermost : Bracket) : Fails start rest (.malformed (.neverClosed innermost) start)

/-- All that is said about a source is said of places between its characters. -/
def Placed (source : String) : Except Fault (List Lexeme) → Prop
  | .ok ls => ∀ lexeme ∈ ls, ∃ rest, At source lexeme.offset rest
  | .error fault => ∃ start rest, At source start rest ∧ Fails start rest fault

theorem passes_scan {c : Char} (hscan : Token.scan start (c :: text) = .ok (t, rest)) :
    Passes start (c :: text) (start + (Utf8.size (c :: text) - Utf8.size rest)) rest := by
  obtain ⟨w, _, htext⟩ := exists_spells hscan
  refine ⟨w, htext, ?_⟩
  rw [htext, Utf8.size_append, Nat.add_sub_cancel]

/-- One token passes from a place between characters to another. -/
theorem placed_listFrom (h : At source pos text) (opened : List Bracket) :
    Placed source (Lexeme.listFrom pos opened text) := by
  fun_induction Lexeme.listFrom pos opened text with
  | case1 pos text start hdrop =>
    intro lexeme hmem
    rw [List.mem_singleton.1 hmem]
    exact ⟨_, h.spacing hdrop⟩
  | case2 pos text start hdrop innermost others => exact ⟨start, _, h.spacing hdrop, .unclosed innermost⟩
  | case3 pos opened text start c tail hdrop fault hscan =>
    exact ⟨start, _, h.spacing hdrop, .token hscan⟩
  | case4 pos opened text start c tail hdrop t rest hscan fault hmatch =>
    exact ⟨start, _, h.spacing hdrop, .bracket hmatch⟩
  | case5 pos opened text start c tail hdrop t rest hscan stillOpened hmatch hlt stop ih =>
    have hplace := h.spacing hdrop
    have hothers := ih (hplace.passes (passes_scan hscan))
    cases hlist : Lexeme.listFrom stop stillOpened rest with
    | error fault =>
      rw [hlist] at hothers
      exact hothers
    | ok ls =>
      rw [hlist] at hothers
      exact List.forall_mem_cons.2 ⟨⟨_, hplace⟩, hothers⟩

theorem Fails.offset_eq (h : Fails start rest (.malformed cause offset)) : offset = start := by
  cases h with
  | token hscan =>
    rcases eq_of_scan_error hscan with ⟨_, hnumber⟩ | hstring | ⟨c, hchar⟩
    · rcases eq_of_scanNumber_error hnumber with ⟨hglued, _⟩ | hzeros | hlarge
      · cases hglued
        rfl
      · cases hzeros
        rfl
      · cases hlarge
    · cases hstring
      rfl
    · cases hchar
      rfl
  | bracket hmismatch =>
    rcases Lexeme.eq_of_matchBrackets_error hmismatch with hmany | ⟨_, hunmatched⟩ | ⟨_, _, hother⟩
    · cases hmany
      rfl
    · cases hunmatched
      rfl
    · cases hother
      rfl
  | unclosed => rfl

/-- A source is refused at a place of it by the lexer, or at one of its lexemes by the parser. -/
theorem fails_or_refused (h : Expr.parse source = .error fault) :
    (∃ start rest, At source start rest ∧ Fails start rest fault) ∨
      ∃ left : List Lexeme, (∀ lexeme ∈ left, ∃ rest, At source lexeme.offset rest) ∧
        (fault = Lexeme.unexpected left ∨ fault = Lexeme.tooDeep left) := by
  have hplaced := placed_listFrom (.start source) []
  change Placed source (Lexeme.list source) at hplaced
  unfold Expr.parse at h
  cases hlist : Lexeme.list source with
  | error other =>
    rw [hlist] at h hplaced
    cases h
    exact .inl hplaced
  | ok ls =>
    rw [hlist] at h hplaced
    obtain ⟨left, hsuffix, hfault⟩ := Expr.refused_of_ofLexemes h
    exact .inr ⟨left, fun lexeme hmem => hplaced lexeme (hsuffix.subset hmem), hfault⟩

theorem at_nextOffset {left : List Lexeme} (h : ∀ lexeme ∈ left, ∃ rest, At source lexeme.offset rest) :
    ∃ rest, At source (Lexeme.nextOffset left) rest := by
  cases left with
  | nil => exact ⟨_, .start source⟩
  | cons lexeme left => exact h lexeme List.mem_cons_self

theorem at_of_parse (h : Expr.parse source = .error (.malformed cause offset)) :
    ∃ rest, At source offset rest := by
  rcases fails_or_refused h with ⟨start, rest, hplace, hfails⟩ | ⟨left, hleft, hfault⟩
  · rw [hfails.offset_eq]
    exact ⟨rest, hplace⟩
  · have hoffset : offset = Lexeme.nextOffset left := by
      rcases hfault with hunexpected | hdeep
      · unfold Lexeme.unexpected at hunexpected
        split at hunexpected <;> cases hunexpected <;> rfl
      · cases hdeep
        rfl
    rw [hoffset]
    exact at_nextOffset hleft

theorem exists_mark (text : List Char) :
    ∃ mark ∈ [[], ['j'], ['J']], text = mark ++ (scanImaginaryMark text).2 := by
  unfold scanImaginaryMark
  split
  · exact ⟨['j'], by decide, rfl⟩
  · exact ⟨['J'], by decide, rfl⟩
  · exact ⟨[], by decide, rfl⟩

/-- A number is refused as no literal only for what follows the literal. -/
theorem exists_glued (h : Token.scan start text = .error (.malformed .invalidDecimalLiteral offset)) :
    ∃ literal mark rest, text = literal ++ mark ++ rest ∧ IsFloatLiteral literal ∧
      mark ∈ [[], ['j'], ['J']] ∧ rest.head?.any isNameChar := by
  rcases eq_of_scan_error h with ⟨hstart, hnumber⟩ | hstring | ⟨c, hchar⟩
  · rcases eq_of_scanNumber_error hnumber with ⟨_, hname⟩ | hzeros | hlarge
    · obtain ⟨literal, htext, hscan⟩ := exists_numeral text
      obtain ⟨mark, hmark, hrest⟩ := exists_mark (Numeral.scan text).2
      have hliteral := isFloatLiteral_of_scan hscan (digits_ne_nil_of_startsNumber hstart)
      refine ⟨literal, mark, _, ?_, hliteral, hmark, hname⟩
      rw [List.append_assoc, ← hrest, ← htext]
    · cases hzeros
    · cases hlarge
  · cases hstring
  · cases hchar

theorem exists_glued_of_parse (h : Expr.parse source = .error (.malformed .invalidDecimalLiteral offset)) :
    ∃ front literal mark rest, source.toList = front ++ literal ++ mark ++ rest ∧
      offset = Utf8.size front ∧ IsFloatLiteral literal ∧ mark ∈ [[], ['j'], ['J']] ∧
      rest.head?.any isNameChar := by
  rcases fails_or_refused h with ⟨start, text, ⟨front, hsource, hstart⟩, hfails⟩ | ⟨left, _, hfault⟩
  · have hoffset := hfails.offset_eq
    cases hfails with
    | token hscan =>
      obtain ⟨literal, mark, rest, rfl, hliteral, hmark, hname⟩ := exists_glued hscan
      refine ⟨front, literal, mark, rest, ?_, hoffset.trans hstart, hliteral, hmark, hname⟩
      rw [hsource, List.append_assoc, List.append_assoc, List.append_assoc]
    | bracket hmismatch =>
      rcases Lexeme.eq_of_matchBrackets_error hmismatch with hmany | ⟨_, hunmatched⟩ | ⟨_, _, hother⟩
      · cases hmany
      · cases hunmatched
      · cases hother
  · rcases hfault with hunexpected | hdeep
    · unfold Lexeme.unexpected at hunexpected
      split at hunexpected <;> cases hunexpected
    · cases hdeep

/-- No cut is made inside of a character and nothing but a float is converted to one: read byte by byte, a
source comes to the same lexemes or the same fault. A number is refused as no literal only if a name
character follows its literal. All offsets of faults are between characters of the source. -/
theorem lexemes_never_slip (source : String) :
    lexemes source 0 [] = (Lexeme.list source).mapError .fault ∧
      (∀ text, (readFloat? text).isSome ↔ IsFloatLiteral text) ∧
      (∀ offset, Expr.parse source = .error (.malformed .invalidDecimalLiteral offset) →
        ∃ front literal mark rest, source.toList = front ++ literal ++ mark ++ rest ∧
          offset = Utf8.size front ∧ IsFloatLiteral literal ∧ mark ∈ [[], ['j'], ['J']] ∧
          rest.head?.any isNameChar) ∧
      ∀ cause offset, Expr.parse source = .error (.malformed cause offset) →
        (⟨offset⟩ : String.Pos.Raw).IsValid source ∧ offset ≤ source.utf8ByteSize := by
  refine ⟨lexemes_eq (.start source) [], fun text => isSome_readFloat?_iff, ?_, ?_⟩
  · exact fun offset => exists_glued_of_parse
  · intro cause offset h
    obtain ⟨rest, hplace⟩ := at_of_parse h
    exact ⟨hplace.isValid, hplace.isValid.le_rawEndPos⟩

/-- Bytes are counted, of which there are two in one of the characters before the number. -/
theorem lexemes_never_slip_glued :
    let source := "'é' + 5.jx"
    let fault : Fault := .malformed .invalidDecimalLiteral 7
    lexemes source 0 [] = .error (.fault fault) ∧ Expr.parse source = .error fault ∧
      (∃ front literal mark rest, source.toList = front ++ literal ++ mark ++ rest ∧
        7 = Utf8.size front ∧ IsFloatLiteral literal ∧ mark ∈ [[], ['j'], ['J']] ∧
        rest.head?.any isNameChar) ∧
      (⟨7⟩ : String.Pos.Raw).IsValid source ∧ 7 ≤ source.utf8ByteSize := by
  intro source fault
  have hlist : Lexeme.list source = .error fault := eq_error_of_map (f := fun _ => ()) (by decide +kernel)
  have hparse : Expr.parse source = .error fault := by
    rw [Expr.parse, hlist]
    rfl
  obtain ⟨hlexemes, _, hglued, hoffset⟩ := lexemes_never_slip source
  rw [hlist] at hlexemes
  exact ⟨hlexemes, hparse, hglued 7 hparse, hoffset _ 7 hparse⟩

end Abacus.Bytes
