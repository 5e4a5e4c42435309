import Abacus.Proofs.Alphabet
import Abacus.Proofs.Grammar.Exactness
import Abacus.Proofs.Reduction

namespace Abacus

open Text Token
open Lexeme (Written isSpacing tokens)
open Abacus.Expr (parse)

theorem isSeparator_of_isSpacing {c : Char} (h : isSpacing c) : isSeparator c := by
  simp only [isSpacing, Bool.or_eq_true, beq_iff_eq] at h
  rcases h with (((rfl | rfl) | rfl) | rfl) | rfl <;> rfl

theorem isSeparator_of_isNameStart {c : Char} (h : isNameStart c) : isSeparator c = false := by
  rcases toNat_of_isNameStart h with hupper | hlower | rfl
  · exact isSeparator_of_visible (by omega) (by omega)
  · exact isSeparator_of_visible (by omega) (by omega)
  · rfl

theorem isSeparator_of_inNumber {c : Char} (h : inNumber c) : isSeparator c = false := by
  simp only [inNumber, Numeral.occurs, Numeral.resumes, Bool.or_eq_true, beq_iff_eq] at h
  rcases h with ((((((h | rfl) | rfl) | rfl) | rfl) | rfl) | rfl) | rfl
  · exact isSeparator_of_isDigit h
  all_goals rfl

theorem isSeparator_of_all {w : List Char} (h : w.all fun c => !isSeparator c) :
    ∀ c ∈ w, isSeparator c = false := by
  intro c hc
  have hsignificant := List.all_eq_true.1 h c hc
  rwa [Bool.not_eq_true'] at hsignificant

theorem not_inAlphabet_of_isNameStart {c : Char} (h : isNameStart c) : inAlphabet c = false := by
  cases hin : inAlphabet c with
  | false => rfl
  | true =>
    unfold inAlphabet at hin
    rw [not_isDigit_of_isNameStart h, Bool.false_or, List.contains_iff_mem] at hin
    simp only [List.mem_cons, List.not_mem_nil, or_false] at hin
    rcases hin with rfl | rfl | rfl | rfl | rfl | rfl | rfl <;> cases h

/-- Tokens that are written without letters and quotes. -/
def Token.isPlain : Token → Bool
  | name _ | keyword _ | str _ => false
  | _ => true

/-- A spelling from the alphabet is of a plain token and has no separators in it. -/
theorem Token.Spells.plain {w : List Char} {t : Token} (h : Spells w t)
    (halphabet : ∀ c ∈ w, isSeparator c = false → inAlphabet c) :
    t.isPlain ∧ ∀ c ∈ w, isSeparator c = false := by
  have hshape := h.shape
  cases t with
  | int | float | imaginary => exact ⟨rfl, fun c hc => isSeparator_of_inNumber (hshape.2 c hc)⟩
  | str =>
    obtain ⟨quote, v, rfl, hquote⟩ := hshape
    rcases hquote with rfl | rfl
    · exact absurd (halphabet '"' List.mem_cons_self rfl) (by decide)
    · exact absurd (halphabet '\'' List.mem_cons_self rfl) (by decide)
  | name | keyword =>
    obtain ⟨c, v, rfl, hname⟩ := hshape
    have hc := halphabet c List.mem_cons_self (isSeparator_of_isNameStart hname)
    rw [not_inAlphabet_of_isNameStart hname] at hc
    cases hc
  | symbol sign =>
    subst hshape
    exact ⟨rfl, isSeparator_of_all (by cases sign <;> rfl)⟩
  | opening bracket | closing bracket =>
    subst hshape
    exact ⟨rfl, isSeparator_of_all (by cases bracket <;> rfl)⟩
  | eof => cases hshape

/-- The characters that make a longer symbol of another. -/
def Symbol.prolongs (c : Char) : Bool := c == '*' || c == '/' || c == '<' || c == '>' || c == '='

namespace Place

/-- A dot is followed by a name, so among plain tokens there is none. -/
theorem dot_notMem {place final : Place} {ts : List Token} (hrun : place.run ts = some final)
    (hfinal : final ≠ member) (hplain : ∀ t ∈ ts, t.isPlain) : .symbol .dot ∉ ts := by
  induction ts generalizing place with
  | nil => exact List.not_mem_nil
  | cons t ts ih =>
    rw [run_cons] at hrun
    obtain ⟨following, hafter, hrest⟩ := Option.bind_eq_some_iff.1 hrun
    rw [List.mem_cons, not_or]
    refine ⟨?_, ih hrest fun u hu => hplain u (List.mem_cons_of_mem t hu)⟩
    rintro rfl
    have hmember : following = member := by
      cases place <;> cases hafter
      rfl
    subst hmember
    cases ts with
    | nil =>
      cases hrest
      exact hfinal rfl
    | cons u us =>
      have hname := hplain u (List.mem_cons_of_mem _ List.mem_cons_self)
      cases u with
      | name => cases hname
      | _ => cases hrest

/-- Behind a number comes nothing that starts with a letter, a digit or a point. -/
theorem clear_behind_number {final : Place} {u : Token} {w : List Char}
    (hu : link.after u = some final) (hplain : u.isPlain) (hdot : u ≠ .symbol .dot)
    (hspells : Spells w u) : Clear (fun c => isNameChar c || c == '.') w := by
  have hshape := hspells.shape
  cases u with
  | name | keyword | str => cases hplain
  | symbol sign =>
    subst hshape
    cases sign with
    | dot => exact absurd rfl hdot
    | tilde | ellipsis => cases hu
    | _ => exact clear_cons.2 (by decide)
  | opening bracket | closing bracket =>
    subst hshape
    cases bracket <;> exact clear_cons.2 (by decide)
  | _ => cases hu

theorem clear_of_startsNumber {w : List Char} (h : startsNumber w) :
    Clear (fun c => !(c.isDigit || c == '.')) w := by
  cases w with
  | nil => cases h
  | cons c w =>
    rw [clear_cons]
    by_cases hpoint : c = '.'
    · subst hpoint
      rfl
    · rw [startsNumber_of_ne_point hpoint] at h
      simp [h]

theorem clear_prolongs_of_startsNumber {w : List Char} (h : startsNumber w) :
    Clear Symbol.prolongs w := by
  apply (clear_of_startsNumber h).mono
  intro c hc
  simp only [Symbol.prolongs, Bool.or_eq_true, beq_iff_eq] at hc
  rcases hc with (((rfl | rfl) | rfl) | rfl) | rfl <;> rfl

/-- No operand starts as an operator goes on. -/
theorem clear_behind_operator {final : Place} {u : Token} {w : List Char}
    (hu : operand.after u = some final) (hplain : u.isPlain) (hspells : Spells w u) :
    Clear Symbol.prolongs w := by
  have hshape := hspells.shape
  cases u with
  | name | keyword | str => cases hplain
  | int | float | imaginary =>
    exact clear_prolongs_of_startsNumber hshape.1
  | symbol sign =>
    subst hshape
    cases sign <;> first | exact clear_cons.2 (by decide) | cases hu
  | opening bracket =>
    subst hshape
    cases bracket <;> exact clear_cons.2 (by decide)
  | _ => cases hu

/-- No token of an expression would run into the next one, if neither is a dot or written with
letters: where a number ends no operand comes, and behind a star or a slash no operator. -/
theorem clear_of_after {place following final : Place} {t u : Token} {w : List Char}
    (ht : place.after t = some following) (hu : following.after u = some final)
    (htplain : t.isPlain) (huplain : u.isPlain) (htdot : t ≠ .symbol .dot)
    (hudot : u ≠ .symbol .dot) (hspells : Spells w u) : Clear t.continues w := by
  cases t with
  | name | keyword | str => cases htplain
  | int | float | imaginary =>
    have hlink : following = link := by
      cases place <;> cases ht <;> rfl
    subst hlink
    exact clear_behind_number hu huplain hudot hspells
  | symbol sign =>
    cases sign with
    | dot => exact absurd rfl htdot
    | star | slash | less | greater =>
      have hoperand : following = operand := by
        cases place <;> cases ht
        rfl
      subst hoperand
      apply (clear_behind_operator hu huplain hspells).mono
      intro c hc
      simp only [continues, Symbol.continues, Bool.or_eq_true, beq_iff_eq] at hc
      first
        | subst hc
          rfl
        | rcases hc with rfl | rfl <;> rfl
    | _ => exact fun _ _ => rfl
  | opening | closing | eof => exact fun _ _ => rfl

end Place

theorem plain_of_written {us : List Token} {text : List Char} (h : Written us text)
    (halphabet : ∀ c ∈ text, isSeparator c = false → inAlphabet c) : ∀ t ∈ us, t.isPlain := by
  induction h with
  | blank => simp
  | token _ spells _ _ ih =>
    intro t ht
    rcases List.mem_cons.1 ht with rfl | ht
    · exact (spells.plain fun c hc => halphabet c (by simp [hc])).1
    · exact ih (fun c hc => halphabet c (by simp [hc])) t ht

/-- Where nothing stands between the tokens, none runs into the tokens behind it. -/
theorem clear_of_written {place following final : Place} {t : Token} {us : List Token}
    {text : List Char} (h : Written us text) (hdense : ∀ c ∈ text, isSpacing c = false)
    (ht : place.after t = some following) (hrun : following.run us = some final)
    (hplain : ∀ u ∈ t :: us, u.isPlain) (hdot : .symbol .dot ∉ t :: us) :
    Clear t.continues text := by
  cases h with
  | blank hblank =>
    cases text with
    | nil => exact clear_nil
    | cons c text =>
      have hc := hblank c List.mem_cons_self
      rw [hdense c List.mem_cons_self] at hc
      cases hc
  | @token blanks w text u us hblank spells _ _ =>
    cases blanks with
    | cons c blanks =>
      have hc := hblank c List.mem_cons_self
      rw [hdense c List.mem_cons_self] at hc
      cases hc
    | nil =>
      rw [Place.run_cons] at hrun
      obtain ⟨_, hu, _⟩ := Option.bind_eq_some_iff.1 hrun
      have htdot : t ≠ .symbol .dot := fun heq => hdot (by simp [heq])
      have hudot : u ≠ .symbol .dot := fun heq => hdot (by simp [heq])
      have hclear := Place.clear_of_after ht hu (hplain t (by simp)) (hplain u (by simp)) htdot hudot
        spells
      exact hclear.append_of_ne_nil spells.ne_nil

/-- Without its separators an expression is written as the same tokens, side by side. -/
theorem written_of_filter {place final : Place} {us : List Token} {text : List Char}
    (h : Written us text) (hrun : place.run us = some final) (hfinal : final ≠ .member)
    (halphabet : ∀ c ∈ text, isSeparator c = false → inAlphabet c) :
    Written us (text.filter fun c => !isSeparator c) := by
  induction h generalizing place with
  | blank hblank =>
    rw [List.filter_eq_nil_iff.2 fun c hc => by simp [isSeparator_of_isSpacing (hblank c hc)]]
    exact .blank (by simp)
  | @token blanks w text t us hblank spells _ others ih =>
    have hplain := plain_of_written (.token hblank spells ‹_› others) halphabet
    have hdot := Place.dot_notMem hrun hfinal hplain
    rw [Place.run_cons] at hrun
    obtain ⟨following, hafter, hrest⟩ := Option.bind_eq_some_iff.1 hrun
    have hwritten := ih hrest fun c hc => halphabet c (by simp [hc])
    have hdense : ∀ c ∈ text.filter fun c => !isSeparator c, isSpacing c = false := by
      intro c hc
      have hsignificant := (List.mem_filter.1 hc).2
      cases hspacing : isSpacing c with
      | false => rfl
      | true => simp [isSeparator_of_isSpacing hspacing] at hsignificant
    have hclear := clear_of_written hwritten hdense hafter hrest hplain hdot
    have hblanks : blanks.filter (fun c => !isSeparator c) = [] :=
      List.filter_eq_nil_iff.2 fun c hc => by simp [isSeparator_of_isSpacing (hblank c hc)]
    have hword : w.filter (fun c => !isSeparator c) = w := by
      apply List.filter_eq_self.2
      intro c hc
      simp [(spells.plain fun c hc => halphabet c (by simp [hc])).2 c hc]
    rw [List.filter_append, List.filter_append, hblanks, hword]
    exact .token (by simp) spells (spells.scan 0 _ hclear) hwritten

/-- What cleaning returns is the text without its separators, all of it in the alphabet. -/
theorem clean_eq_ok {raw cleaned : String} (h : clean raw = .ok cleaned) :
    cleaned.toList = raw.toList.filter (fun c => !isSeparator c) ∧
      ∀ c ∈ raw.toList, isSeparator c = false → inAlphabet c := by
  obtain ⟨htext, hfamiliar, _⟩ := clean_eq_ok_iff.1 h
  refine ⟨htext, fun c hc hseparator => ?_⟩
  exact familiar_iff.1 hfamiliar c (mem_significant.2 ⟨hc, hseparator⟩)

/-- The characters of numbers that are written without an exponent. -/
def isPlainNumeric (c : Char) : Bool := c.isDigit || c == '.' || c == '-'

theorem inAlphabet_of_isPlainNumeric {c : Char} (h : isPlainNumeric c) : inAlphabet c := by
  simp only [isPlainNumeric, Bool.or_eq_true, beq_iff_eq] at h
  rcases h with (hdigit | rfl) | rfl
  · rw [inAlphabet, hdigit, Bool.true_or]
  · rfl
  · rfl

theorem isPlainNumeric_of_isDigit_or_point {c : Char} (h : c.isDigit ∨ c = '.') : isPlainNumeric c := by
  rcases h with hdigit | rfl
  · rw [isPlainNumeric, hdigit, Bool.true_or, Bool.true_or]
  · rfl

theorem count_of_isPlainNumeric {text : List Char} (h : ∀ c ∈ text, isPlainNumeric c) {c : Char}
    (hc : isPlainNumeric c = false) : text.count c = 0 := by
  apply List.count_eq_zero.2
  intro hmem
  rw [h c hmem] at hc
  cases hc

/-- A text is cleaned to what is left of it without separators, if that is in the alphabet with as many
opening as closing parentheses. -/
theorem solve_of_significant {raw : String} (halphabet : ∀ c ∈ significant raw, inAlphabet c)
    (hcount : (significant raw).count '(' = (significant raw).count ')') :
    solve raw = compute (.ofList (significant raw)) := by
  have hclean : clean raw = .ok (.ofList (significant raw)) := by
    rw [count_significant raw rfl, count_significant raw rfl] at hcount
    exact clean_eq_ok_iff.2 ⟨String.toList_ofList, familiar_iff.2 halphabet, hcount⟩
  unfold solve
  rw [hclean]
  rfl

theorem solve_of_foreign {raw : String} {c : Char}
    (h : (significant raw).find? (fun c => !inAlphabet c) = some c) :
    solve raw = .error (.invalidCharacter c) := by
  rw [find?_significant] at h
  unfold solve
  rw [clean_of_foreign h]
  rfl

/-- Cleaning does not change what an expression means. -/
theorem parse_clean {raw cleaned : String} {e : Expr} (hparse : parse raw = .ok e)
    (hclean : clean raw = .ok cleaned) :
    parse cleaned = .ok e ∧ solve raw = compute raw := by
  obtain ⟨htext, halphabet⟩ := clean_eq_ok hclean
  have hagain : parse cleaned = .ok e := by
    obtain ⟨ts, hwritten, hnest, hderives, hheight⟩ := Expr.parse_eq_ok_iff.1 hparse
    refine Expr.parse_eq_ok_iff.2 ⟨ts, ?_, hnest, hderives, hheight⟩
    rw [htext]
    rcases hderives.walks with hrun | hrun
    · exact written_of_filter hwritten hrun (by decide) halphabet
    · exact written_of_filter hwritten hrun (by decide) halphabet
  refine ⟨hagain, ?_⟩
  unfold solve
  rw [hclean]
  change compute cleaned = compute raw
  rw [compute_eq, compute_eq, hagain, hparse]

theorem parse_clean_spaced_power :
    ∃ e, parse " ( 2 + 2 ) ** -3 " = .ok e ∧ clean " ( 2 + 2 ) ** -3 " = .ok "(2+2)**-3" ∧
      parse "(2+2)**-3" = .ok e ∧ solve " ( 2 + 2 ) ** -3 " = compute " ( 2 + 2 ) ** -3 " := by
  have hread : (parse " ( 2 + 2 ) ** -3 ").toBool := by decide +kernel
  cases hparse : parse " ( 2 + 2 ) ** -3 " with
  | error fault =>
    rw [hparse] at hread
    cases hread
  | ok e => exact ⟨e, rfl, rfl, parse_clean hparse rfl⟩

end Abacus
