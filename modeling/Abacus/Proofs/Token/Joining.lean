import Abacus.Proofs.Token.Written

namespace Abacus

open Text

namespace Numeral

/-- A reader that comes to its end before a point does not heed what stands behind the point. -/
def EndsAtPoint {α : Type} (read : List Char → α × List Char) : Prop :=
  ∀ w r, r.length < (read (w ++ '.' :: r)).2.length →
    ∃ v, ∀ other, read (w ++ '.' :: other) = ((read (w ++ '.' :: r)).1, v ++ '.' :: other)

variable {α β : Type}

theorem digits_before_point (w r : List Char) : digits (w ++ '.' :: r) = digits w := by
  induction w with
  | nil => rfl
  | cons c w ih =>
    unfold digits at ih ⊢
    rw [List.cons_append, List.takeWhile_cons, List.takeWhile_cons, ih]

theorem afterDigits_before_point (w r : List Char) :
    afterDigits (w ++ '.' :: r) = afterDigits w ++ '.' :: r := by
  induction w with
  | nil => rfl
  | cons c w ih =>
    unfold afterDigits at ih ⊢
    rw [List.cons_append, List.dropWhile_cons, List.dropWhile_cons, ih]
    split <;> rfl

theorem scanFraction_endsAtPoint : EndsAtPoint scanFraction := by
  intro w r hlong
  cases w with
  | nil => exact absurd hlong (Nat.not_lt_of_le (length_afterDigits_le r))
  | cons c w =>
    by_cases hpoint : c = '.'
    · subst hpoint
      refine ⟨afterDigits w, fun other => ?_⟩
      simp only [List.cons_append, scanFraction, digits_before_point, afterDigits_before_point]
    · have hclear (text : List Char) : Clear (· == '.') (c :: text) :=
        clear_cons.2 (beq_false_of_ne hpoint)
      refine ⟨c :: w, fun other => ?_⟩
      rw [List.cons_append, List.cons_append, scanFraction_of_clear (hclear _),
        scanFraction_of_clear (hclear _)]

theorem scanSign_before_point (w : List Char) :
    ∃ negative v, ∀ r, scanSign (w ++ '.' :: r) = (negative, v ++ '.' :: r) := by
  cases w with
  | nil => exact ⟨false, [], fun r => rfl⟩
  | cons c w =>
    by_cases hplus : c = '+'
    · subst hplus
      exact ⟨false, w, fun r => rfl⟩
    by_cases hminus : c = '-'
    · subst hminus
      exact ⟨true, w, fun r => rfl⟩
    · refine ⟨false, c :: w, fun r => scanSign_of_clear ?_⟩
      rw [List.cons_append, clear_cons, beq_false_of_ne hplus, beq_false_of_ne hminus]
      rfl

theorem scanExponent_endsAtPoint : EndsAtPoint scanExponent := by
  intro w r _
  cases w with
  | nil => exact ⟨[], fun other => rfl⟩
  | cons mark w =>
    obtain ⟨negative, v, hsign⟩ := scanSign_before_point w
    by_cases hmark : mark = 'e' ∨ mark = 'E'
    · cases hempty : (digits v).isEmpty with
      | true =>
        refine ⟨mark :: w, fun other => ?_⟩
        simp [scanExponent, hsign, digits_before_point, hempty]
      | false =>
        refine ⟨afterDigits v, fun other => ?_⟩
        simp [scanExponent, hsign, digits_before_point, afterDigits_before_point, hempty, hmark]
    · refine ⟨mark :: w, fun other => ?_⟩
      simp [scanExponent, hmark]

theorem scan_endsAtPoint : EndsAtPoint scan := by
  intro w r hlong
  have hscan (other : List Char) : scan (w ++ '.' :: other) =
      (⟨digits w, (scanFraction (afterDigits w ++ '.' :: other)).1,
        (scanExponent (scanFraction (afterDigits w ++ '.' :: other)).2).1⟩,
        (scanExponent (scanFraction (afterDigits w ++ '.' :: other)).2).2) := by
    rw [scan, digits_before_point, afterDigits_before_point]
  rw [hscan] at hlong
  obtain ⟨v, hfraction⟩ := scanFraction_endsAtPoint (afterDigits w) r
    (Nat.lt_of_lt_of_le hlong (length_scanExponent_le _))
  rw [hfraction r] at hlong
  obtain ⟨u, hexponent⟩ := scanExponent_endsAtPoint v r hlong
  refine ⟨u, fun other => ?_⟩
  rw [hscan r, hscan other, hfraction r, hfraction other]
  dsimp only
  rw [hexponent other]

end Numeral

namespace Token

theorem scanImaginaryMark_endsAtPoint : Numeral.EndsAtPoint scanImaginaryMark := by
  intro w r _
  cases w with
  | nil => exact ⟨[], fun other => rfl⟩
  | cons c w =>
    by_cases hlower : c = 'j'
    · subst hlower
      exact ⟨w, fun other => rfl⟩
    by_cases hupper : c = 'J'
    · subst hupper
      exact ⟨w, fun other => rfl⟩
    · refine ⟨c :: w, fun other => ?_⟩
      simp [scanImaginaryMark, hlower, hupper]

/-- A number that ends before a point has a point or an exponent already. -/
theorem scanNumber_before_point {offset : Nat} {w r : List Char} {t : Token}
    (h : scanNumber offset (w ++ '.' :: r) = .ok (t, '.' :: r)) (other : List Char) :
    scanNumber offset (w ++ '.' :: other) = .ok (t, '.' :: other) := by
  rw [scanNumber_eq_ok_iff] at h ⊢
  obtain ⟨hrest, _, htoken⟩ := h
  have hmarkLong : r.length < (scanImaginaryMark (Numeral.scan (w ++ '.' :: r)).2).2.length := by
    rw [← hrest]
    exact Nat.lt_succ_self _
  have hlong := Nat.lt_of_lt_of_le hmarkLong (length_scanImaginaryMark_le _)
  obtain ⟨v, hscan⟩ := Numeral.scan_endsAtPoint w r hlong
  rw [hscan r] at hrest hmarkLong htoken
  obtain ⟨u, hmark⟩ := scanImaginaryMark_endsAtPoint v r hmarkLong
  rw [hmark r] at hrest
  have hu : u = [] := by simpa using hrest
  subst hu
  rw [hscan other]
  dsimp only
  rw [hmark other]
  exact ⟨rfl, clear_cons.2 rfl, htoken⟩

theorem startsNumber_before {c : Char} {w r : List Char} (h : startsNumber (w ++ c :: r))
    (hw : w ≠ []) (other : List Char) : startsNumber (w ++ c :: other) := by
  cases w with
  | nil => exact absurd rfl hw
  | cons d w =>
    by_cases hpoint : d = '.'
    · subst hpoint
      cases w <;> exact h
    · rw [List.cons_append, startsNumber_of_ne_point hpoint] at h ⊢
      exact h

/-- The characters that go on with some token. -/
def prolongs (c : Char) : Bool :=
  isNameChar c || c == '.' || c == '*' || c == '/' || c == '<' || c == '>' || c == '='

theorem prolongs_of_continues {t : Token} {c : Char} (h : t.continues c) : prolongs c := by
  cases t with
  | int | float | imaginary =>
    simp only [continues, Bool.or_eq_true] at h
    rcases h with h | h <;> simp [prolongs, h]
  | name | keyword =>
    have hname : isNameChar c := h
    simp [prolongs, hname]
  | symbol sign =>
    cases sign with
    | star | slash | less | greater =>
      simp only [continues, Symbol.continues, Bool.or_eq_true, beq_iff_eq] at h
      first
        | subst h
          rfl
        | rcases h with rfl | rfl <;> rfl
    | dot =>
      simp only [continues, Symbol.continues, Bool.or_eq_true, beq_iff_eq] at h
      rcases h with rfl | hdigit
      · rfl
      · simp [prolongs, isNameChar, Char.isAlphanum, hdigit]
    | _ => cases h
  | _ => cases h

/-- Two points are a dot and another one, unless they are three. -/
theorem scan_two_points {rest : List Char} (h : Clear (· == '.') rest) :
    scan 0 ('.' :: '.' :: rest) = .ok (symbol .dot, '.' :: rest) := by
  cases rest with
  | nil => rfl
  | cons c rest =>
    have hc : c ≠ '.' := by simpa using h
    have hscan : Symbol.scan? ('.' :: '.' :: c :: rest) = some (.dot, '.' :: c :: rest) := by
      simp [Symbol.scan?, Symbol.longestFirst, Symbol.spelling, after?, hc.symm]
    simp [Token.scan, startsNumber, isNameStart, Bracket.ofChar?, hscan]

theorem clear_of_scan_two_points {rest : List Char}
    (h : scan 0 ('.' :: '.' :: rest) = .ok (symbol .dot, '.' :: rest)) : Clear (· == '.') rest := by
  cases rest with
  | nil => exact clear_nil
  | cons c rest =>
    rw [clear_cons, beq_eq_false_iff_ne]
    rintro rfl
    cases h

/-- The only tokens that end where one could go on: a number before a second point, and a dot before
a dot. -/
theorem continues_cases {c : Char} {w text : List Char} {t : Token} (hspells : Spells w t)
    (h : scan 0 (w ++ c :: text) = .ok (t, c :: text)) (hc : t.continues c) :
    c = '.' ∧ (startsNumber (w ++ c :: text) ∨ w = ['.'] ∧ t = symbol .dot) := by
  have hshape := hspells.shape
  obtain ⟨d, v, rfl, _, _⟩ := hspells.exists_cons
  rcases scan_cases h with ⟨hstart, hnumber⟩ | ⟨_, rfl, hrest⟩ | ⟨_, _, _, rfl⟩ | ⟨hbracket, _⟩ |
    ⟨sign, hsign, rfl⟩
  · obtain ⟨_, hname, htoken⟩ := scanNumber_eq_ok_iff.1 hnumber
    rw [continues_toToken htoken] at hc
    simp only [clear_cons.1 hname, Bool.false_or, beq_iff_eq] at hc
    exact ⟨hc, .inl hstart⟩
  · have hname : Clear isNameChar (c :: text) := hrest ▸ clear_dropWhile
    rw [continues_ofName, clear_cons.1 hname] at hc
    cases hc
  · cases hc
  · unfold Bracket.ofChar? at hbracket
    split at hbracket <;> cases hbracket <;> cases hc
  · rw [hshape] at h ⊢
    cases sign with
    | dot =>
      refine ⟨?_, .inr ⟨rfl, rfl⟩⟩
      simp only [continues, Symbol.continues, Bool.or_eq_true, beq_iff_eq] at hc
      rcases hc with hpoint | hdigit
      · exact hpoint
      · have hstart : startsNumber ('.' :: c :: text) := hdigit
        simp only [Symbol.spelling, List.cons_append, List.nil_append, Token.scan, hstart,
          if_true] at h
        obtain ⟨_, _, htoken⟩ := scanNumber_eq_ok_iff.1 h
        rcases toToken_cases htoken with heq | heq | ⟨heq, _⟩ <;> cases heq
    | star | slash | less | greater =>
      simp only [continues, Symbol.continues, Bool.or_eq_true, beq_iff_eq] at hc
      first
        | subst hc
          cases h
        | rcases hc with rfl | rfl <;> cases h
    | _ => cases hc

/-- What ends a token ends it whatever stands behind that, unless a point behind a dot would make an
ellipsis. -/
theorem scan_before {c : Char} {w text other : List Char} {t : Token} (hspells : Spells w t)
    (h : scan 0 (w ++ c :: text) = .ok (t, c :: text))
    (hother : Clear (· == '.') text → Clear (· == '.') other) :
    scan 0 (w ++ c :: other) = .ok (t, c :: other) := by
  cases hc : t.continues c with
  | false => exact hspells.scan 0 (c :: other) (clear_cons.2 hc)
  | true =>
    obtain ⟨rfl, hstart | ⟨rfl, rfl⟩⟩ := continues_cases hspells h hc
    · have hagain := startsNumber_before hstart hspells.ne_nil other
      have hscan {more : List Char} (hmore : startsNumber (w ++ '.' :: more)) :
          scan 0 (w ++ '.' :: more) = scanNumber 0 (w ++ '.' :: more) := by
        obtain ⟨d, v, rfl, _, _⟩ := hspells.exists_cons
        simp only [List.cons_append] at hmore ⊢
        rw [Token.scan, if_pos hmore]
      rw [hscan hstart] at h
      rw [hscan hagain]
      exact scanNumber_before_point h other
    · exact scan_two_points (hother (clear_of_scan_two_points h))

/-- What ends a token before a text still ends it when the text goes on. -/
theorem scan_append {w text more : List Char} {t : Token} (hspells : Spells w t)
    (h : scan 0 (w ++ text) = .ok (t, text)) (hmore : Clear prolongs more) :
    scan 0 (w ++ (text ++ more)) = .ok (t, text ++ more) := by
  cases text with
  | nil => exact hspells.scan 0 more (hmore.mono fun _ => prolongs_of_continues)
  | cons c text =>
    have hpoint : Clear (· == '.') more := hmore.mono fun d hd => by
      rw [beq_iff_eq] at hd
      subst hd
      rfl
    exact scan_before hspells h fun hclear => hclear.append hpoint

/-- What ends a token inside a text still ends it when the text stops earlier. -/
theorem scan_of_append {w text more : List Char} {t : Token} (hspells : Spells w t)
    (h : scan 0 (w ++ (text ++ more)) = .ok (t, text ++ more)) :
    scan 0 (w ++ text) = .ok (t, text) := by
  cases text with
  | nil => exact hspells.scan 0 [] clear_nil
  | cons c text =>
    refine scan_before hspells h fun hclear => ?_
    cases text with
    | nil => exact clear_nil
    | cons d text => exact hclear

end Token

namespace Lexeme.Written

open Token

variable {ts us : List Token} {text more : List Char}

theorem append (h : Written ts text) (hmore : Written us more) (hclear : Clear prolongs more) :
    Written (ts ++ us) (text ++ more) := by
  induction h with
  | blank hblank =>
    cases hmore with
    | blank hrest =>
      exact .blank fun c hc => (List.mem_append.1 hc).elim (hblank c) (hrest c)
    | token hrest spells ends others =>
      rw [← List.append_assoc, ← List.append_assoc]
      exact .token (fun c hc => (List.mem_append.1 hc).elim (hblank c) (hrest c)) spells ends others
  | token hblank spells ends _ ih =>
    rw [List.append_assoc, List.cons_append]
    exact .token hblank spells (scan_append spells ends hclear) ih

theorem token_cons {w : List Char} {t : Token} (spells : Spells w t) (h : Written ts text)
    (hclear : Clear t.continues text) : Written (t :: ts) (w ++ text) :=
  .token (List.forall_mem_nil fun c => Lexeme.isSpacing c) spells (spells.scan 0 text hclear) h

theorem enclosed (h : Written ts text) (hmore : Written us more) :
    Written (.opening .round :: (ts ++ .closing .round :: us)) ('(' :: (text ++ ')' :: more)) := by
  have hclosing : Written (.closing .round :: us) (')' :: more) :=
    token_cons (spells_closing .round) hmore fun _ _ => rfl
  exact token_cons (spells_opening .round) (h.append hclosing (clear_cons.2 rfl)) fun _ _ => rfl

end Lexeme.Written

end Abacus
