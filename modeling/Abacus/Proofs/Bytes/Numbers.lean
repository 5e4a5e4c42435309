import Abacus.Proofs.Bytes.Places
import Abacus.Proofs.Token.Literal

namespace Abacus.Bytes

open Text Token

variable {source : String} {pos start : Nat} {text w : List Char}

/-- What is found at a place in the bytes is what is found in the text there, and the same is left of it. -/
def Agree {α : Type} (pos : Nat) (text : List Char) (found : α × Nat) (scanned : α × List Char) : Prop :=
  found.1 = scanned.1 ∧ Passes pos text found.2 scanned.2

theorem ascii_isDigit : Ascii Char.isDigit := by
  intro c hc
  have hrange : 48 ≤ c.toNat ∧ c.toNat ≤ 57 := Char.isDigit_iff_toNat.1 hc
  omega

theorem ascii_or_beq {p : Char → Bool} {d : Char} (hp : Ascii p) (hd : d.toNat < 0x80) :
    Ascii fun c => p c || c == d := by
  intro c hc
  rcases Bool.or_eq_true_iff.1 hc with hpc | heq
  · exact hp c hpc
  · rwa [beq_iff_eq.1 heq]

theorem ascii_isExponentMark : Ascii isExponentMark :=
  ascii_or_beq (ascii_beq (by decide)) (by decide)

theorem ascii_isSign : Ascii isSign := ascii_or_beq (ascii_beq (by decide)) (by decide)

theorem passes_eatDigits (h : At source pos text) :
    Passes pos text (eatDigits source pos) (Numeral.afterDigits text) :=
  h.passes_skipWhile ascii_isDigit

theorem lt_eatDigits_iff (h : At source pos text) :
    pos < eatDigits source pos ↔ Numeral.digits text ≠ [] := by
  rw [eatDigits, h.skipWhile ascii_isDigit, Nat.lt_add_right_iff_pos]
  constructor
  · intro hsize hnil
    change 0 < Utf8.size (Numeral.digits text) at hsize
    rw [hnil] at hsize
    exact absurd hsize (Nat.lt_irrefl 0)
  · exact Utf8.size_pos

theorem agree_readFraction (h : At source pos text) :
    Agree pos text (readFraction source pos)
      ((Numeral.scanFraction text).1.isSome, (Numeral.scanFraction text).2) := by
  unfold readFraction
  rcases h.eat_cases (d := '.') (by decide) with ⟨rest, rfl, heat, hrest⟩ | ⟨heat, hclear⟩
  · rw [heat]
    exact ⟨rfl, (Passes.cons (by decide) pos rest).trans (passes_eatDigits hrest)⟩
  · rw [heat, Numeral.scanFraction_of_clear hclear]
    exact ⟨rfl, .refl pos text⟩

/-- A point in front has no digits before it. -/
theorem readMantissa_eq (source : String) (pos : Nat) :
    readMantissa source pos = readFraction source (eatDigits source pos) := by
  cases heat : eat source '.' pos with
  | none => rw [readMantissa, heat]
  | some after =>
    obtain ⟨hpeek, rfl⟩ := eat_eq_some heat
    have hdigits : eatDigits source pos = pos := by
      rw [eatDigits, skipWhile]
      split
      · rename_i byte hbyte
        rw [hpeek] at hbyte
        cases hbyte
        rfl
      · rfl
    rw [readMantissa, hdigits, readFraction, heat]

theorem passes_skipSign (h : At source pos text) :
    Passes pos text (skipSign source pos) (Numeral.scanSign text).2 := by
  rw [skipSign, h.any_peek ascii_isSign]
  cases text with
  | nil => exact .refl pos []
  | cons c rest =>
    rw [List.head?_cons, Option.any_some]
    by_cases hsign : isSign c
    · rw [if_pos hsign]
      rcases Bool.or_eq_true_iff.1 hsign with hplus | hminus
      · rw [beq_iff_eq.1 hplus]
        exact .cons (by decide) pos rest
      · rw [beq_iff_eq.1 hminus]
        exact .cons (by decide) pos rest
    · rw [if_neg hsign, Numeral.scanSign_of_clear (clear_cons.2 (Bool.eq_false_iff.2 hsign))]
      exact .refl pos (c :: rest)

theorem agree_readExponent (h : At source pos text) :
    Agree pos text (readExponent source pos)
      ((Numeral.scanExponent text).1.isSome, (Numeral.scanExponent text).2) := by
  rw [readExponent, h.any_peek ascii_isExponentMark]
  cases text with
  | nil => exact ⟨rfl, .refl pos []⟩
  | cons mark rest =>
    rw [List.head?_cons, Option.any_some]
    by_cases hmark : isExponentMark mark
    · have hrest := h.tail (ascii_isExponentMark mark hmark)
      have hsign := passes_skipSign hrest
      have hunsigned := hrest.passes hsign
      have hstop := (Passes.cons (ascii_isExponentMark mark hmark) pos rest).trans
        (hsign.trans (passes_eatDigits hunsigned))
      have hscan : (mark = 'e' || mark = 'E') = true := hmark
      have hdigits := lt_eatDigits_iff hunsigned
      rw [if_pos hmark]
      simp only [Numeral.scanExponent, hscan, hdigits, List.isEmpty_iff, if_true]
      by_cases hempty : Numeral.digits (Numeral.scanSign rest).2 = []
      · simp only [hempty, not_true, ne_eq, if_true, if_false]
        exact ⟨rfl, .refl pos _⟩
      · simp only [hempty, not_false_iff, ne_eq, if_true, if_false]
        exact ⟨rfl, hstop⟩
    · have hclear : Clear isExponentMark (mark :: rest) := clear_cons.2 (Bool.eq_false_iff.2 hmark)
      rw [if_neg hmark, Numeral.scanExponent_of_clear hclear]
      exact ⟨rfl, .refl pos _⟩

theorem agree_readNumeral (h : At source pos text) :
    Agree pos text (readNumeral source pos)
      (!(Numeral.scan text).1.isWhole, (Numeral.scan text).2) := by
  have hdigits := passes_eatDigits h
  have hmantissa := agree_readFraction (h.passes hdigits)
  rw [← readMantissa_eq] at hmantissa
  have hexponent := agree_readExponent ((h.passes hdigits).passes hmantissa.2)
  refine ⟨?_, hdigits.trans (hmantissa.2.trans hexponent.2)⟩
  rw [Numeral.isWhole, Bool.not_and, Option.not_isNone, Option.not_isNone]
  exact congrArg₂ or hmantissa.1 hexponent.1

theorem agree_readImaginaryMark (h : At source pos text) :
    Agree pos text (readImaginaryMark source pos) (scanImaginaryMark text) := by
  unfold readImaginaryMark
  rcases h.eat_cases (d := 'j') (by decide) with ⟨rest, rfl, heat, hrest⟩ | ⟨heat, hlower⟩
  · rw [heat]
    exact ⟨rfl, .cons (by decide) pos rest⟩
  rw [heat]
  rcases h.eat_cases (d := 'J') (by decide) with ⟨rest, rfl, heat, hrest⟩ | ⟨heat, hupper⟩
  · rw [heat]
    exact ⟨rfl, .cons (by decide) pos rest⟩
  · have hscan : scanImaginaryMark text = (false, text) := by
      unfold scanImaginaryMark
      split
      · cases clear_cons.1 hlower
      · cases clear_cons.1 hupper
      · rfl
    rw [heat, hscan]
    exact ⟨rfl, .refl pos text⟩

/-- What a float has before a power of ten. -/
inductive IsMantissa : List Char → Prop where
  | digits {ds : List Char} (nonempty : ds ≠ []) (isDigit : ∀ c ∈ ds, c.isDigit) : IsMantissa ds
  | point (literal : PointLiteral) : IsMantissa literal.chars

/-- A power of ten, if there is one. -/
inductive IsPower : List Char → Prop where
  | absent : IsPower []
  | present {mark : Char} {sign ds : List Char} (isMark : mark = 'e' ∨ mark = 'E')
      (isSign : sign ∈ [[], ['+'], ['-']]) (nonempty : ds ≠ []) (isDigit : ∀ c ∈ ds, c.isDigit) :
      IsPower (mark :: (sign ++ ds))

def IsFloatLiteral (text : List Char) : Prop :=
  ∃ mantissa power, text = mantissa ++ power ∧ IsMantissa mantissa ∧ IsPower power

theorem scanSign_of_digits {sign ds : List Char} (hsign : sign ∈ [[], ['+'], ['-']])
    (hne : ds ≠ []) (hds : ∀ c ∈ ds, c.isDigit) :
    ∃ negative, Numeral.scanSign (sign ++ ds) = (negative, ds) := by
  have hclear : Clear (fun c => c == '+' || c == '-') (ds ++ []) := Numeral.clear_sign_of_digits hds hne
  rw [List.append_nil] at hclear
  simp only [List.mem_cons, List.not_mem_nil, or_false] at hsign
  rcases hsign with rfl | rfl | rfl
  · exact ⟨false, Numeral.scanSign_of_clear hclear⟩
  · exact ⟨false, rfl⟩
  · exact ⟨true, rfl⟩

/-- A power of ten is read to its end, and nothing before it goes on with it. -/
theorem scanExponent_of_isPower {power : List Char} (h : IsPower power) :
    (Numeral.scanExponent power).2 = [] ∧ Clear (fun c => c.isDigit || c == '.') power := by
  cases h with
  | absent => exact ⟨rfl, clear_nil⟩
  | @present mark sign ds hmark hsign hne hds =>
    constructor
    · obtain ⟨negative, hscan⟩ := scanSign_of_digits hsign hne hds
      have hall : Numeral.scanSign (sign ++ ds ++ []) = (negative, ds ++ []) := by
        rw [List.append_nil, List.append_nil, hscan]
      have hexponent := Numeral.scanExponent_mark hmark sign ds [] hall hne hds clear_nil
      rw [List.append_nil] at hexponent
      rw [hexponent]
    · rw [clear_cons]
      rcases hmark with rfl | rfl <;> rfl

/-- What is read of an exponent is a power of ten, and nothing where none is read. -/
theorem exists_isPower (text : List Char) :
    ∃ power, text = power ++ (Numeral.scanExponent text).2 ∧ IsPower power ∧
      ((Numeral.scanExponent text).1 = none → power = []) := by
  by_cases hclear : Clear isExponentMark text
  · rw [Numeral.scanExponent_of_clear hclear]
    exact ⟨[], rfl, .absent, fun _ => rfl⟩
  cases text with
  | nil => exact absurd clear_nil hclear
  | cons mark rest =>
    have hmark : (mark = 'e' || mark = 'E') = true := by
      rwa [clear_cons, Bool.not_eq_false] at hclear
    have hsign : ∃ sign ∈ [[], ['+'], ['-']], rest = sign ++ (Numeral.scanSign rest).2 := by
      unfold Numeral.scanSign
      split
      · exact ⟨['+'], by decide, rfl⟩
      · exact ⟨['-'], by decide, rfl⟩
      · exact ⟨[], by decide, rfl⟩
    obtain ⟨sign, hsign, hrest⟩ := hsign
    by_cases hempty : Numeral.digits (Numeral.scanSign rest).2 = []
    · refine ⟨[], ?_, .absent, fun _ => rfl⟩
      simp [Numeral.scanExponent, hmark, hempty]
    · have hsplit := Numeral.digits_append_afterDigits (Numeral.scanSign rest).2
      refine ⟨mark :: (sign ++ Numeral.digits (Numeral.scanSign rest).2), ?_,
        .present (by simpa using hmark) hsign hempty Numeral.isDigit_of_mem_digits, ?_⟩
      · simp only [Numeral.scanExponent, hmark, hempty, List.isEmpty_iff, if_true, if_false]
        rw [List.cons_append, List.append_assoc, hsplit, ← hrest]
      · simp [Numeral.scanExponent, hmark, hempty]

/-- The characters of a fraction, with its point. -/
def fractionChars (fraction : Option (List Char)) : List Char := fraction.elim [] ('.' :: ·)

theorem scanFraction_append (text : List Char) :
    fractionChars (Numeral.scanFraction text).1 ++ (Numeral.scanFraction text).2 = text ∧
      ∀ ds ∈ (Numeral.scanFraction text).1, ∀ c ∈ ds, c.isDigit := by
  unfold Numeral.scanFraction
  split
  · rename_i rest
    refine ⟨congrArg ('.' :: ·) (Numeral.digits_append_afterDigits rest), ?_⟩
    intro ds hds
    cases hds
    exact Numeral.isDigit_of_mem_digits
  · refine ⟨rfl, ?_⟩
    intro ds hds
    cases hds

variable {n : Numeral}

/-- The text of a numeral is digits, a fraction and a power of ten, one after the other. -/
theorem exists_power (hscan : Numeral.scan w = (n, [])) :
    (∀ c ∈ n.whole, c.isDigit) ∧ (∀ ds ∈ n.fraction, ∀ c ∈ ds, c.isDigit) ∧
      ∃ power, w = n.whole ++ fractionChars n.fraction ++ power ∧ IsPower power ∧
        (n.exponent = none → power = []) := by
  obtain ⟨hfraction, hdigits⟩ := scanFraction_append (Numeral.afterDigits w)
  obtain ⟨power, hrest, hpower, habsent⟩ :=
    exists_isPower (Numeral.scanFraction (Numeral.afterDigits w)).2
  have hn : (Numeral.scan w).1 = n := congrArg Prod.fst hscan
  have hend : (Numeral.scanExponent (Numeral.scanFraction (Numeral.afterDigits w)).2).2 = [] :=
    congrArg Prod.snd hscan
  subst hn
  refine ⟨Numeral.isDigit_of_mem_digits, hdigits, power, ?_, hpower, habsent⟩
  rw [hend, List.append_nil] at hrest
  calc w = Numeral.digits w ++ Numeral.afterDigits w := (Numeral.digits_append_afterDigits w).symm
    _ = Numeral.digits w ++ (fractionChars (Numeral.scan w).1.fraction ++ power) := by
      rw [← hrest]
      exact congrArg _ hfraction.symm
    _ = _ := (List.append_assoc ..).symm

theorem eq_of_isWhole (hscan : Numeral.scan w = (n, [])) (hwhole : n.isWhole) :
    n = ⟨w, none, none⟩ ∧ ∀ c ∈ w, c.isDigit := by
  obtain ⟨hdigits, _, power, hw, _, habsent⟩ := exists_power hscan
  obtain ⟨whole, fraction, exponent⟩ := n
  rw [Numeral.isWhole, Bool.and_eq_true, Option.isNone_iff_eq_none, Option.isNone_iff_eq_none] at hwhole
  obtain ⟨rfl, rfl⟩ : fraction = none ∧ exponent = none := hwhole
  rw [habsent rfl, List.append_nil] at hw
  have hall : w = whole := by
    rw [hw]
    exact List.append_nil whole
  rw [hall]
  exact ⟨rfl, hdigits⟩

theorem readFloat?_eq (hscan : Numeral.scan w = (n, [])) (hne : n.whole ++ n.fraction.getD [] ≠ []) :
    readFloat? w = some n.toDecimal.toBinary64 := by
  rw [readFloat?, hscan]
  exact if_pos ⟨rfl, hne⟩

theorem isMantissa_of_digits (hwhole : ∀ c ∈ n.whole, c.isDigit)
    (hfraction : ∀ ds ∈ n.fraction, ∀ c ∈ ds, c.isDigit) (hne : n.whole ++ n.fraction.getD [] ≠ []) :
    IsMantissa (n.whole ++ fractionChars n.fraction) := by
  cases hn : n.fraction with
  | none =>
    rw [hn, Option.getD_none, List.append_nil] at hne
    rw [fractionChars, Option.elim_none, List.append_nil]
    exact .digits hne hwhole
  | some ds =>
    rw [hn, Option.getD_some, ne_eq, List.append_eq_nil_iff, not_and_or] at hne
    exact .point ⟨n.whole, ds, hwhole, hfraction ds hn, hne⟩

theorem isFloatLiteral_of_scan (hscan : Numeral.scan w = (n, []))
    (hne : n.whole ++ n.fraction.getD [] ≠ []) : IsFloatLiteral w := by
  obtain ⟨hwhole, hfraction, power, hw, hpower, _⟩ := exists_power hscan
  exact ⟨_, power, hw, isMantissa_of_digits hwhole hfraction hne, hpower⟩

theorem IsFloatLiteral.scan (h : IsFloatLiteral w) :
    ∃ n : Numeral, Numeral.scan w = (n, []) ∧ n.whole ++ n.fraction.getD [] ≠ [] := by
  obtain ⟨mantissa, power, rfl, hmantissa, hpower⟩ := h
  obtain ⟨hend, hclear⟩ := scanExponent_of_isPower hpower
  cases hmantissa with
  | digits hne hdigits =>
    have hscan := Numeral.scan_digits hdigits hclear
    rw [hend] at hscan
    exact ⟨_, hscan, by simpa using hne⟩
  | point literal =>
    have hdigit : Clear Char.isDigit power := hclear.mono fun c hc => by simp [hc]
    have hscan := Numeral.scan_point literal.isDigit_whole literal.isDigit_fraction hdigit
    rw [hend] at hscan
    rw [PointLiteral.chars, List.append_assoc, List.cons_append]
    refine ⟨_, hscan, ?_⟩
    rw [ne_eq, List.append_eq_nil_iff, not_and_or]
    exact literal.nonempty

/-- The texts that are read as floats are those of floats. -/
theorem isSome_readFloat?_iff : (readFloat? text).isSome ↔ IsFloatLiteral text := by
  constructor
  · intro h
    obtain ⟨x, hx⟩ := Option.isSome_iff_exists.1 h
    cases hscan : Numeral.scan text with | mk n rest =>
    rw [readFloat?, hscan, Option.ite_none_right_eq_some] at hx
    obtain ⟨⟨rfl, hne⟩, _⟩ := hx
    exact isFloatLiteral_of_scan hscan hne
  · intro h
    obtain ⟨n, hscan, hne⟩ := h.scan
    rw [readFloat?_eq hscan hne]
    rfl

/-- A number starts with a digit or with a point before one. -/
theorem digits_ne_nil_of_startsNumber (h : startsNumber text) :
    (Numeral.scan text).1.whole ++ (Numeral.scan text).1.fraction.getD [] ≠ [] := by
  unfold startsNumber at h
  split at h
  · rename_i c rest
    simp [Numeral.scan, Numeral.digits, Numeral.afterDigits, Numeral.scanFraction, h]
  · rename_i c rest hpoint
    simp [Numeral.scan, Numeral.digits, h]
  · cases h

theorem size_of_digits {ds : List Char} (h : ∀ c ∈ ds, c.isDigit) : Utf8.size ds = ds.length := by
  induction ds with
  | nil => rfl
  | cons c ds ih =>
    rw [List.forall_mem_cons] at h
    rw [← List.singleton_append, Utf8.size_append, size_singleton (ascii_isDigit c h.1), ih h.2,
      List.length_append]
    rfl

theorem readInteger?_of_digits (hne : w ≠ []) (hdigits : ∀ c ∈ w, c.isDigit) :
    readInteger? w =
      if Nat.ofDigitChars 10 w 0 < Numeral.intLimit then some (.ofNat (Nat.ofDigitChars 10 w 0))
      else none := by
  simp only [readInteger?, hne, List.all_eq_true.2 hdigits, ne_eq, not_false_eq_true, true_and]

/-- An integer is a token of the same kind whether its text or its digits are looked at. -/
theorem toToken_of_digits {x : Binary64} (hfloat : toFloat w = .ok x) (hne : w ≠ [])
    (hdigits : ∀ c ∈ w, c.isDigit) (hx : (Numeral.mk w none none).toDecimal.toBinary64 = x) (start : Nat) :
    toToken start false false w =
      ((Numeral.mk w none none).toToken start false).mapError .fault := by
  have hzeros : (Numeral.mk w none none).hasLeadingZeros =
      (decide (1 < Utf8.size w) && w.head? == some '0' && w.any (· != '0')) := by
    rw [size_of_digits hdigits]
    rfl
  have hcoefficient : (Numeral.mk w none none).toDecimal.coefficient = Nat.ofDigitChars 10 w 0 :=
    congrArg (Nat.ofDigitChars 10 · 0) (List.append_nil w)
  have hwhole : (Numeral.mk w none none).isWhole = true := rfl
  unfold toToken Numeral.toToken
  rw [← hzeros, readInteger?_of_digits hne hdigits, hfloat, hcoefficient, hx, hwhole]
  simp only [Bool.not_true, Bool.false_eq_true, if_false]
  split
  · rfl
  · by_cases hsmall : Nat.ofDigitChars 10 w 0 < Numeral.intLimit
    · rw [if_pos hsmall, if_pos hsmall]
      rfl
    · rw [if_neg hsmall, if_neg hsmall]
      dsimp only [bind, Except.bind]
      split <;> rfl

theorem toToken_eq (hscan : Numeral.scan w = (n, [])) (hne : n.whole ++ n.fraction.getD [] ≠ [])
    (start : Nat) (isImaginary : Bool) :
    toToken start isImaginary (!n.isWhole) w = (n.toToken start isImaginary).mapError .fault := by
  have hfloat : toFloat w = .ok n.toDecimal.toBinary64 := by rw [toFloat, readFloat?_eq hscan hne]
  cases isImaginary with
  | true =>
    rw [toToken, if_pos rfl, hfloat]
    rfl
  | false =>
    cases hwhole : n.isWhole with
    | false =>
      rw [Numeral.toToken_of_not_whole hwhole, toToken, hfloat]
      rfl
    | true =>
      obtain ⟨rfl, hdigits⟩ := eq_of_isWhole hscan hwhole
      exact toToken_of_digits hfloat (by simpa using hne) hdigits rfl start

/-- A reader of bytes has the outcome of a reader of characters and ends where that one does. -/
inductive Matches (pos : Nat) (text : List Char) :
    Except Stop (Token × Nat) → Except Fault (Token × List Char) → Prop where
  | fault (fault : Fault) : Matches pos text (.error (.fault fault)) (.error fault)
  | token {found : Token × Nat} {scanned : Token × List Char} (agree : Agree pos text found scanned) :
      Matches pos text (.ok found) (.ok scanned)

namespace Matches

variable {read : Except Stop (Token × Nat)} {rest : List Char} {t : Token}

theorem eq_error {fault : Fault} (h : Matches pos text read (.error fault)) : read = .error (.fault fault) := by
  cases h
  rfl

theorem eq_ok (h : Matches pos text read (.ok (t, rest))) :
    ∃ stop, read = .ok (t, stop) ∧ Passes pos text stop rest := by
  cases h with
  | @token found _ agree =>
    obtain ⟨rfl, hpasses⟩ := agree
    exact ⟨found.2, rfl, hpasses⟩

end Matches

theorem ascii_isNameStart : Ascii isNameStart := by
  intro c hc
  rcases toNat_of_isNameStart hc with hupper | hlower | rfl
  · omega
  · omega
  · decide

theorem ascii_isNameChar : Ascii isNameChar := by
  intro c hc
  simp only [isNameChar, Char.isAlphanum, Bool.or_eq_true] at hc
  rcases hc with (halpha | hdigit) | hline
  · exact ascii_isNameStart c (Bool.or_eq_true_iff.2 (.inl halpha))
  · exact ascii_isDigit c hdigit
  · exact ascii_isNameStart c (Bool.or_eq_true_iff.2 (.inr hline))

/-- What is read as a numeral is all of it, whatever follows. -/
theorem exists_numeral (text : List Char) :
    ∃ w, text = w ++ (Numeral.scan text).2 ∧ Numeral.scan w = ((Numeral.scan text).1, []) := by
  obtain ⟨w, ⟨hw, hlocal⟩, _⟩ := Numeral.scan_local text
  have hend := hlocal [] clear_nil
  rw [List.append_nil] at hend
  exact ⟨w, hw, hend⟩

/-- What is cut out of the source for a number is the text of a numeral and no more. -/
theorem cut_numeral (h : At source start text) :
    ∃ w, cut source start (readNumeral source start).2 = .ok w ∧
      Numeral.scan w = ((Numeral.scan text).1, []) := by
  obtain ⟨v, hv, hscan⟩ := exists_numeral text
  obtain ⟨w, hw, hstop⟩ := (agree_readNumeral h).2
  have hsame : v = w := List.append_cancel_right (hv.symm.trans hw)
  rw [hv] at h
  rw [hstop, ← hsame]
  exact ⟨v, h.cut, hscan⟩

theorem matches_readNumber (h : At source start text) (hstart : startsNumber text) :
    Matches start text (readNumber source start) (scanNumber start text) := by
  obtain ⟨hfloat, hnumeral⟩ := agree_readNumeral h
  obtain ⟨hmark, hafter⟩ := agree_readImaginaryMark (h.passes hnumeral)
  obtain ⟨w, hcut, hscan⟩ := cut_numeral h
  have hpeek := ((h.passes hnumeral).passes hafter).any_peek ascii_isNameChar
  have htoken := toToken_eq hscan (digits_ne_nil_of_startsNumber hstart) start
  unfold readNumber scanNumber
  dsimp only at hfloat hmark hafter hpeek ⊢
  rw [hcut]
  dsimp only [bind, Except.bind]
  rw [hpeek, hfloat, hmark, htoken]
  split
  · exact .fault _
  · cases (Numeral.scan text).1.toToken start (scanImaginaryMark (Numeral.scan text).2).1 with
    | error fault => exact .fault fault
    | ok token => exact .token ⟨rfl, hnumeral.trans hafter⟩

end Abacus.Bytes
