import Abacus.Proofs.Token.Spelling
import Abacus.Token.Lexeme

namespace Abacus

open Text Token

theorem eq_ok_of_toOption {α : Type} {x : Except Fault α} {a : α} (h : x.toOption = some a) :
    x = .ok a := by
  cases x with
  | error fault => cases h
  | ok b =>
    cases h
    rfl

theorem eq_error_of_map {α β : Type} {x : Except Fault α} {fault : Fault} {f : α → β}
    (h : x.map f = .error fault) : x = .error fault := by
  cases x with
  | error other =>
    cases h
    rfl
  | ok a => cases h

/-- The faults that a text has before anything in it is worked out. -/
def Fault.inText : Fault → Bool
  | malformed _ _ | intTooLarge => true
  | _ => false

namespace Token

/-- What is read does not depend on where the text stands. -/
theorem scan_offset {offset : Nat} {text rest : List Char} {t : Token}
    (h : scan offset text = .ok (t, rest)) (other : Nat) : scan other text = .ok (t, rest) := by
  cases text with
  | nil => exact h
  | cons c text =>
    simp only [scan] at h ⊢
    split at h
    · obtain ⟨hrest, hclear, htoken⟩ := scanNumber_eq_ok_iff.1 h
      rw [if_pos ‹_›, scanNumber_eq_ok_iff]
      exact ⟨hrest, hclear, toToken_offset htoken other⟩
    rw [if_neg ‹_›]
    split at h
    · rwa [if_pos ‹_›]
    rw [if_neg ‹_›]
    split at h
    · rw [if_pos ‹_›]
      split at h
      · exact h
      · cases h
    rw [if_neg ‹_›]
    split at h
    · exact h
    split at h
    · exact h
    · cases h

theorem eq_of_toToken_error {n : Numeral} {offset : Nat} {isImaginary : Bool} {fault : Fault}
    (h : n.toToken offset isImaginary = .error fault) :
    fault = .malformed .leadingZeros offset ∨ fault = .intTooLarge := by
  unfold Numeral.toToken at h
  dsimp only at h
  split at h
  · cases h
  split at h
  · cases h
  split at h
  · cases h
    exact .inl rfl
  split at h
  · cases h
  split at h
  · cases h
  · cases h
    exact .inr rfl

/-- What a number must not run into is behind its imaginary mark. -/
theorem eq_of_scanNumber_error {offset : Nat} {text : List Char} {fault : Fault}
    (h : scanNumber offset text = .error fault) :
    (fault = .malformed .invalidDecimalLiteral offset ∧
        (scanImaginaryMark (Numeral.scan text).2).2.head?.any isNameChar) ∨
      fault = .malformed .leadingZeros offset ∨ fault = .intTooLarge := by
  unfold scanNumber at h
  dsimp only at h
  split at h
  · cases h
    exact .inl ⟨rfl, ‹_›⟩
  · exact .inr (eq_of_toToken_error (eq_error_of_map h))

theorem eq_of_scan_error {offset : Nat} {text : List Char} {fault : Fault}
    (h : scan offset text = .error fault) :
    (startsNumber text ∧ scanNumber offset text = .error fault) ∨
      fault = .malformed .unterminatedString offset ∨
      ∃ c, fault = .malformed (.invalidCharacter c) offset := by
  cases text with
  | nil => cases h
  | cons c text =>
    simp only [scan] at h
    split at h
    · exact .inl ⟨‹_›, h⟩
    split at h
    · cases h
    split at h
    · split at h
      · cases h
      · cases h
        exact .inr (.inl rfl)
    split at h
    · cases h
    split at h
    · cases h
    · cases h
      exact .inr (.inr ⟨c, rfl⟩)

theorem inText_of_scan {offset : Nat} {text : List Char} {fault : Fault}
    (h : scan offset text = .error fault) : fault.inText := by
  rcases eq_of_scan_error h with ⟨_, hnumber⟩ | rfl | ⟨_, rfl⟩
  · rcases eq_of_scanNumber_error hnumber with ⟨rfl, _⟩ | rfl | rfl <;> rfl
  · rfl
  · rfl

/-- Only the end of a text is read as the end. -/
theorem ne_eof_of_scan {offset : Nat} {c : Char} {text rest : List Char} {t : Token}
    (h : scan offset (c :: text) = .ok (t, rest)) : t ≠ eof := by
  rcases scan_cases h with ⟨_, hnumber⟩ | ⟨_, rfl, _⟩ | ⟨_, _, _, rfl⟩ | ⟨hbracket, _⟩ | ⟨_, _, rfl⟩
  · obtain ⟨_, _, htoken⟩ := scanNumber_eq_ok_iff.1 hnumber
    rcases toToken_cases htoken with rfl | rfl | ⟨rfl, _⟩ <;> exact Token.noConfusion
  · unfold ofName
    split <;> exact Token.noConfusion
  · exact Token.noConfusion
  · rintro rfl
    unfold Bracket.ofChar? at hbracket
    split at hbracket <;> cases hbracket
  · exact Token.noConfusion

theorem scan_of_isSpacing {c : Char} (h : Lexeme.isSpacing c) (offset : Nat) (text : List Char) :
    scan offset (c :: text) = .error (.malformed (.invalidCharacter c) offset) := by
  simp only [Lexeme.isSpacing, Bool.or_eq_true, beq_iff_eq] at h
  rcases h with (((rfl | rfl) | rfl) | rfl) | rfl <;> rfl

theorem Spells.exists_cons {w : List Char} {t : Token} (h : Spells w t) :
    ∃ c v, w = c :: v ∧ Lexeme.isSpacing c = false ∧ t ≠ eof := by
  cases w with
  | nil => exact absurd rfl h.ne_nil
  | cons c v =>
    have hscan := h.scan 0 [] clear_nil
    rw [List.append_nil] at hscan
    refine ⟨c, v, rfl, ?_, ne_eof_of_scan hscan⟩
    cases hspacing : Lexeme.isSpacing c with
    | false => rfl
    | true =>
      rw [scan_of_isSpacing hspacing] at hscan
      cases hscan

end Token

namespace Lexeme

def tokens (ts : List Lexeme) : List Token := ts.map token

@[simp] theorem tokens_nil : tokens [] = [] := rfl

@[simp] theorem tokens_cons (lexeme : Lexeme) (ts : List Lexeme) :
    tokens (lexeme :: ts) = lexeme.token :: tokens ts := rfl

@[simp] theorem tokens_append (ts us : List Lexeme) : tokens (ts ++ us) = tokens ts ++ tokens us :=
  List.map_append

/-- The brackets that are open behind tokens, if those nest so far. -/
def nest (opened : List Bracket) : List Token → Option (List Bracket)
  | [] => some opened
  | t :: ts =>
    match matchBrackets 0 opened t with
    | .ok stillOpened => nest stillOpened ts
    | .error _ => none

/-- The text is the tokens, each in one of its spellings and none running into what follows. -/
inductive Written : List Token → List Char → Prop where
  | blank {text} (blank : ∀ c ∈ text, isSpacing c) : Written [] text
  | token {blanks w text t ts} (blank : ∀ c ∈ blanks, isSpacing c) (spells : Spells w t)
      (ends : scan 0 (w ++ text) = .ok (t, text)) (others : Written ts text) :
      Written (t :: ts) (blanks ++ w ++ text)

theorem matchBrackets_offset {offset : Nat} {opened stillOpened : List Bracket} {t : Token}
    (h : matchBrackets offset opened t = .ok stillOpened) (other : Nat) :
    matchBrackets other opened t = .ok stillOpened := by
  cases t with
  | opening bracket =>
    simp only [matchBrackets] at h ⊢
    split at h
    · cases h
    · rwa [if_neg ‹_›]
  | closing bracket =>
    simp only [matchBrackets] at h ⊢
    split at h
    · cases h
    · split at h
      · rwa [if_pos ‹_›]
      · cases h
  | _ => exact h

theorem blank_of_dropWhile {text : List Char} (h : text.dropWhile isSpacing = []) :
    ∀ c ∈ text, isSpacing c := by
  have hall := List.takeWhile_append_dropWhile (p := isSpacing) (l := text)
  rw [h, List.append_nil] at hall
  rw [← hall]
  exact List.all_eq_true.1 List.all_takeWhile

theorem dropWhile_of_blank {text : List Char} (h : ∀ c ∈ text, isSpacing c) :
    text.dropWhile isSpacing = [] := by
  have hdrop := dropWhile_append h (clear_nil (p := isSpacing))
  rwa [List.append_nil] at hdrop

/-- Only what has lexemes is written as tokens, with brackets that nest. -/
theorem written_of_listFrom {offset : Nat} {opened : List Bracket} {text : List Char}
    {ts : List Lexeme} (h : listFrom offset opened text = .ok ts) :
    ∃ us, tokens ts = us ++ [.eof] ∧ .eof ∉ us ∧ Written us text ∧ nest opened us = some [] := by
  fun_induction listFrom offset opened text generalizing ts with
  | case1 =>
    rename_i htext
    cases h
    exact ⟨[], rfl, List.not_mem_nil, .blank (blank_of_dropWhile htext), rfl⟩
  | case2 | case3 | case4 => cases h
  | case5 =>
    rename_i text start c tail htext t rest hscan stillOpened hopened _ stop ih
    cases hothers : listFrom stop stillOpened rest with
    | error fault =>
      rw [hothers] at h
      cases h
    | ok others =>
      rw [hothers] at h
      cases h
      obtain ⟨us, htokens, heof, hwritten, hnest⟩ := ih hothers
      obtain ⟨w, hspells, hword⟩ := exists_spells hscan
      have hall : text = text.takeWhile isSpacing ++ w ++ rest := by
        rw [List.append_assoc, ← hword, ← htext, List.takeWhile_append_dropWhile]
      refine ⟨t :: us, ?_, ?_, ?_, ?_⟩
      · rw [tokens_cons, htokens]
        rfl
      · rw [List.mem_cons, not_or]
        exact ⟨(ne_eof_of_scan hscan).symm, heof⟩
      · rw [hall]
        refine .token (List.all_eq_true.1 List.all_takeWhile) hspells ?_ hwritten
        rw [← hword]
        exact scan_offset hscan 0
      · rw [nest, matchBrackets_offset hopened]
        exact hnest

/-- Reading takes the first token and goes on behind it, unless the token is a bracket that does not
match. -/
theorem listFrom_step {blanks w text : List Char} {t : Token} (hblank : ∀ c ∈ blanks, isSpacing c)
    (hspells : Spells w t) (hends : scan 0 (w ++ text) = .ok (t, text)) (offset : Nat)
    (opened : List Bracket) :
    ∃ start stop, listFrom offset opened (blanks ++ w ++ text) =
      matchBrackets start opened t >>= fun stillOpened =>
        (listFrom stop stillOpened text).map (⟨t, start⟩ :: ·) := by
  obtain ⟨c, v, rfl, hspacing, _⟩ := hspells.exists_cons
  rw [List.cons_append] at hends
  have hclear : Clear isSpacing (c :: (v ++ text)) := clear_cons.2 hspacing
  have hdrop : (blanks ++ (c :: v) ++ text).dropWhile isSpacing = c :: (v ++ text) := by
    rw [List.append_assoc]
    exact dropWhile_append hblank hclear
  rw [listFrom.eq_def]
  dsimp only
  split
  · rename_i hnil
    rw [hdrop] at hnil
    cases hnil
  · rename_i hcons
    rw [hdrop] at hcons
    cases hcons
    split
    · rename_i hscan
      rw [scan_offset hends] at hscan
      cases hscan
    · rename_i hscan
      rw [scan_offset hends] at hscan
      cases hscan
      refine ⟨offset + Utf8.size ((blanks ++ c :: v ++ text).takeWhile isSpacing),
        offset + Utf8.size ((blanks ++ c :: v ++ text).takeWhile isSpacing) +
          (Utf8.size (c :: (v ++ text)) - Utf8.size text), ?_⟩
      split
      · rename_i hbrackets
        rw [hbrackets]
        rfl
      · rename_i hbrackets
        rw [hbrackets]
        rfl

theorem listFrom_token {offset : Nat} {opened stillOpened : List Bracket} {blanks w text : List Char}
    {t : Token} (hblank : ∀ c ∈ blanks, isSpacing c) (hspells : Spells w t)
    (hends : scan 0 (w ++ text) = .ok (t, text))
    (hopened : matchBrackets 0 opened t = .ok stillOpened) :
    ∃ start stop, listFrom offset opened (blanks ++ w ++ text) =
      (listFrom stop stillOpened text).map (⟨t, start⟩ :: ·) := by
  obtain ⟨start, stop, hlist⟩ := listFrom_step hblank hspells hends offset opened
  refine ⟨start, stop, ?_⟩
  rw [hlist, matchBrackets_offset hopened]
  rfl

theorem map_nil_append (found : Except Fault (List Lexeme)) : found.map ([] ++ ·) = found := by
  cases found <;> rfl

theorem map_append_map (ls ms : List Lexeme) (found : Except Fault (List Lexeme)) :
    (found.map (ms ++ ·)).map (ls ++ ·) = found.map (ls ++ ms ++ ·) := by
  cases found with
  | error fault => rfl
  | ok found => exact congrArg Except.ok (List.append_assoc ls ms found).symm

/-- What is written as tokens, with brackets that nest, has these tokens. -/
theorem listFrom_of_written {us : List Token} {text : List Char} (h : Written us text)
    {opened : List Bracket} (hnest : nest opened us = some []) (offset : Nat) :
    ∃ ts, listFrom offset opened text = .ok ts ∧ tokens ts = us ++ [.eof] := by
  induction h generalizing opened offset with
  | blank hblank =>
    cases hnest
    rw [listFrom.eq_def]
    dsimp only
    split
    · exact ⟨_, rfl, rfl⟩
    · rename_i hcons
      rw [dropWhile_of_blank hblank] at hcons
      cases hcons
  | @token blanks w text t us hblank hspells hends _ ih =>
    unfold nest at hnest
    split at hnest
    · rename_i stillOpened hopened
      obtain ⟨start, stop, hlist⟩ := listFrom_token hblank hspells hends hopened
      obtain ⟨ts, hothers, htokens⟩ := ih hnest stop
      refine ⟨⟨t, start⟩ :: ts, ?_, ?_⟩
      · rw [hlist, hothers]
        rfl
      · rw [tokens_cons, htokens]
        rfl
    · cases hnest

theorem eq_of_matchBrackets_error {offset : Nat} {opened : List Bracket} {t : Token} {fault : Fault}
    (h : matchBrackets offset opened t = .error fault) :
    fault = .malformed .tooManyBrackets offset ∨
      (∃ bracket, fault = .malformed (.unmatchedBracket bracket) offset) ∨
      ∃ bracket innermost, fault = .malformed (.mismatchedBracket bracket innermost) offset := by
  cases t with
  | opening bracket =>
    simp only [matchBrackets] at h
    split at h
    · cases h
      exact .inl rfl
    · cases h
  | closing bracket =>
    simp only [matchBrackets] at h
    split at h
    · cases h
      exact .inr (.inl ⟨bracket, rfl⟩)
    · split at h
      · cases h
      · cases h
        exact .inr (.inr ⟨bracket, _, rfl⟩)
  | _ => cases h

theorem inText_of_matchBrackets {offset : Nat} {opened : List Bracket} {t : Token} {fault : Fault}
    (h : matchBrackets offset opened t = .error fault) : fault.inText := by
  rcases eq_of_matchBrackets_error h with rfl | ⟨_, rfl⟩ | ⟨_, _, rfl⟩ <;> rfl

/-- A text without lexemes is malformed, or it has an integer too large for any number. -/
theorem inText_of_listFrom {offset : Nat} {opened : List Bracket} {text : List Char} {fault : Fault}
    (h : listFrom offset opened text = .error fault) : fault.inText := by
  fun_induction listFrom offset opened text with
  | case1 => cases h
  | case2 =>
    cases h
    rfl
  | case3 =>
    cases h
    exact inText_of_scan ‹_›
  | case4 =>
    cases h
    exact inText_of_matchBrackets ‹_›
  | case5 =>
    rename_i rest _ stillOpened _ _ stop ih
    cases hothers : listFrom stop stillOpened rest with
    | error other =>
      rw [hothers] at h
      cases h
      exact ih hothers
    | ok others =>
      rw [hothers] at h
      cases h

end Lexeme

end Abacus
