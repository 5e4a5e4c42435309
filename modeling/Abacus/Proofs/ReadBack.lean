import Abacus.Proofs.Cleaning
import Abacus.Proofs.Decimal.Printed
import Abacus.Proofs.Progress

namespace Abacus

open Text Token Binary64 Decimal
open Abacus.Expr (parse)

theorem Token.spells_of_denotes {text : List Char} {v : Rat} (h : Denotes text v) :
    Spells text (.float (ofIndex (nearestIndex v))) := by
  obtain ⟨hstart, n, hscan, hwhole, rfl⟩ := h
  have hspells := spells_of_not_whole hstart hscan hwhole
  rwa [Decimal.toBinary64_eq_ofIndex] at hspells

section Single

variable {text : List Char} {c : Constant} {x : Binary64}

theorem takes_single (spells : Spells text c.token) : Takes [] text [c.token] [] [] := by
  have hmatch : Lexeme.matchBrackets 0 [] c.token = .ok [] := by
    cases c with
    | bool b => cases b <;> rfl
    | _ => rfl
  have htakes := Takes.token spells clear_nil hmatch
  rwa [List.append_nil] at htakes

theorem parse_single (spells : Spells text c.token) : parse (.ofList text) = .ok (.constant c) := by
  have htakes := takes_single spells
  rw [← String.toList_ofList (l := text)] at htakes
  exact parse_of_takes htakes (Derives.constant c).sentence (Nat.zero_le _)
    (by decide : 1 ≤ Expr.maxDepth)

theorem compute_of_constant {source : String} (hparse : parse source = .ok (.constant c))
    (hnumber : c.number? = some x) : compute source = .ok x := by
  refine compute_eq_ok_iff.2 ⟨_, hparse, ?_⟩
  rw [Expr.value, hnumber]

/-- A text that is one constant is computed to its number. -/
theorem compute_single (spells : Spells text c.token) (hnumber : c.number? = some x) :
    compute (.ofList text) = .ok x := compute_of_constant (parse_single spells) hnumber

theorem compute_negative (spells : Spells text c.token) (hnumber : c.number? = some x) :
    compute (.ofList ('-' :: text)) = .ok (-x) := by
  have hparse : parse (.ofList ('-' :: text)) = .ok (.unary .neg (.constant c)) := by
    have hminus : Takes [] ('-' :: text) [.symbol .minus] [] text :=
      Takes.token (spells_symbol .minus) (fun _ _ => rfl) rfl
    have htakes := hminus.append (takes_single spells)
    rw [← String.toList_ofList (l := '-' :: text)] at htakes
    have hderives : Derives 1 (.phrase .signed) [.symbol .minus, c.token] (.unary .neg (.constant c)) :=
      .signed (by decide : UnaryOp.neg ≠ .not) ((Derives.constant c).loosen (by decide))
    exact parse_of_takes htakes hderives.sentence (by decide) (by decide : 2 ≤ Expr.maxDepth)
  refine compute_eq_ok_iff.2 ⟨_, hparse, ?_⟩
  rw [Expr.value, Expr.value, hnumber]
  rfl

end Single

/-- The text of a magnitude, which a sign may precede. -/
def Binary64.magnitudeChars (index : Nat) : List Char :=
  if index = 0 then ['0', '.', '0'] else (shortest index).resultText

theorem denotes_zero : Denotes ['0', '.', '0'] 0 := ⟨rfl, _, rfl, rfl, zero_mul _⟩

theorem denotes_magnitudeChars (index : Nat) :
    ∃ v, Denotes (magnitudeChars index) v ∧ nearestIndex v = index := by
  unfold magnitudeChars
  split
  · rename_i hzero
    exact ⟨0, denotes_zero, hzero.symm⟩
  · rename_i hne
    exact ⟨_, denotes_resultText (coefficient_shortest_ne_zero hne), nearestIndex_shortest index⟩

theorem spells_magnitudeChars (index : Fin magnitudeCount) :
    Spells (magnitudeChars index) (.float (finite false index)) := by
  obtain ⟨v, hdenotes, hindex⟩ := denotes_magnitudeChars index
  have hspells := spells_of_denotes hdenotes
  rwa [hindex, ofIndex, dif_pos index.isLt] at hspells

theorem compute_resultText (negative : Bool) (index : Fin magnitudeCount) :
    compute (finite negative index).resultText = .ok (finite negative index) := by
  have hspells := spells_magnitudeChars index
  cases negative with
  | false => exact compute_single (c := .float _) hspells rfl
  | true => exact compute_negative (c := .float _) hspells rfl

theorem isSeparator_of_mem_resultText {x : Binary64} {c : Char} (h : c ∈ x.resultText.toList) :
    isSeparator c = false := by
  have hsigned {negative : Bool} {text : List Char} (htext : ∀ c ∈ text, isSeparator c = false) :
      ∀ c ∈ withSign negative text, isSeparator c = false := by
    cases negative with
    | false => exact htext
    | true => exact List.forall_mem_cons.2 ⟨rfl, htext⟩
  rw [Binary64.resultText, String.toList_ofList] at h
  cases x with
  | nan => exact isSeparator_of_all (w := ['n', 'a', 'n']) rfl c h
  | infinity negative => exact hsigned (isSeparator_of_all rfl) c h
  | finite negative index =>
    have hinside := (spells_magnitudeChars index).shape.2
    exact hsigned (fun c hc => isSeparator_of_inNumber (hinside c hc)) c h

theorem significant_of_isPlainNumeric {text : List Char} (h : ∀ c ∈ text, isPlainNumeric c) :
    significant (.ofList text) = text :=
  significant_of_dense fun c hc => isSeparator_of_inAlphabet (inAlphabet_of_isPlainNumeric (h c hc))

theorem solve_of_isPlainNumeric {text : List Char} (h : ∀ c ∈ text, isPlainNumeric c) :
    solve (.ofList text) = compute (.ofList text) := by
  have hsignificant := significant_of_isPlainNumeric h
  rw [solve_of_significant, hsignificant]
  · rw [hsignificant]
    exact fun c hc => inAlphabet_of_isPlainNumeric (h c hc)
  · rw [hsignificant, count_of_isPlainNumeric h rfl, count_of_isPlainNumeric h rfl]

theorem solve_of_exponent {front power : List Char} (h : ∀ c ∈ front, isPlainNumeric c) :
    solve (.ofList (front ++ 'e' :: power)) = .error (.invalidCharacter 'e') := by
  apply solve_of_foreign
  have hnone : front.find? (fun c => !inAlphabet c) = none :=
    List.find?_eq_none.2 fun c hc => by simp [inAlphabet_of_isPlainNumeric (h c hc)]
  have hmark : significant (.ofList ('e' :: power)) = 'e' :: power.filter fun c => !isSeparator c := by
    rw [significant, String.toList_ofList, List.filter_cons_of_pos rfl]
  rw [String.ofList_append, significant_append, significant_of_isPlainNumeric h, hmark,
    List.find?_append, hnone]
  rfl

theorem isPlainNumeric_withSign {negative : Bool} {text : List Char}
    (h : ∀ c ∈ text, c.isDigit ∨ c = '.') : ∀ c ∈ withSign negative text, isPlainNumeric c := by
  have htext : ∀ c ∈ text, isPlainNumeric c := fun c hc => isPlainNumeric_of_isDigit_or_point (h c hc)
  cases negative with
  | false => exact htext
  | true => exact List.forall_mem_cons.2 ⟨rfl, htext⟩

/-- Cleaning lets a result pass if it is written without an exponent. -/
theorem solve_resultText (negative : Bool) (index : Fin magnitudeCount) :
    solve (finite negative index).resultText =
      if index.val = 0 ∨
          (10 : Rat) ^ (-4 : Int) ≤ magnitude index ∧ magnitude index < (10 : Rat) ^ (16 : Int) then
        .ok (finite negative index)
      else .error (.invalidCharacter 'e') := by
  have hcompute := compute_resultText negative index
  have htext : (finite negative index).resultText =
      .ofList (withSign negative (magnitudeChars index)) := rfl
  rw [htext] at hcompute ⊢
  by_cases hzero : index.val = 0
  · rw [if_pos (.inl hzero), ← hcompute, magnitudeChars, if_pos hzero]
    exact solve_of_isPlainNumeric (isPlainNumeric_withSign (by simp))
  rw [magnitudeChars, if_neg hzero] at hcompute ⊢
  by_cases hlayout : (shortest index).IsPositional
  · obtain ⟨literal, htext, _⟩ := exists_point_positional (coefficient_shortest_ne_zero hzero)
    rw [if_pos (.inr ((isPositional_shortest_iff hzero).1 hlayout)), ← hcompute,
      resultText_of_positional hlayout, htext]
    exact solve_of_isPlainNumeric (isPlainNumeric_withSign literal.isDigit_or_point)
  · have hrange := fun hrange => hlayout ((isPositional_shortest_iff hzero).2 hrange)
    obtain ⟨mantissa, power, hscientific, hmantissa⟩ := exists_mantissa (shortest index)
    have hfront : withSign negative (mantissa ++ 'e' :: power) =
        withSign negative mantissa ++ 'e' :: power := by cases negative <;> rfl
    rw [if_neg (not_or.2 ⟨hzero, hrange⟩), resultText_of_not_positional hlayout, hscientific, hfront]
    exact solve_of_exponent (isPlainNumeric_withSign hmantissa)

/-- A text that is one integer is read as what its digits stand for, unless that is past the finite
numbers. -/
theorem parse_whole {text : List Char} {n : Numeral} (hstart : startsNumber text)
    (hscan : Numeral.scan text = (n, [])) (hwhole : n.isWhole) (hzeros : n.hasLeadingZeros = false) :
    parse (.ofList text) =
      if leastInfinite ≤ n.toDecimal.coefficient then .error .intTooLarge
      else .ok (.constant (.ofNat n.toDecimal.coefficient)) := by
  have htoken := Numeral.toToken_of_whole hwhole hzeros
  split
  · rename_i hgreat
    simp only [if_pos hgreat] at htoken
    apply parse_of_refuses
    rw [String.toList_ofList]
    exact refuses_numeral hstart hscan clear_nil htoken
  · rename_i hfinite
    simp only [if_neg hfinite] at htoken
    exact parse_single (spells_of_numeral hstart hscan (htoken 0))

theorem compute_whole {text : List Char} {n : Numeral} (hstart : startsNumber text)
    (hscan : Numeral.scan text = (n, [])) (hwhole : n.isWhole) (hzeros : n.hasLeadingZeros = false) :
    compute (.ofList text) =
      if leastInfinite ≤ n.toDecimal.coefficient then .error (.evaluation .intTooLarge)
      else .ok (.ofNat n.toDecimal.coefficient) := by
  have hparse := parse_whole hstart hscan hwhole hzeros
  split
  · rename_i hgreat
    rw [if_pos hgreat] at hparse
    exact compute_of_error hparse
  · rename_i hfinite
    rw [if_neg hfinite] at hparse
    exact compute_of_constant hparse (Constant.number?_ofNat _)

/-- A text that is one number is computed to the nearest binary64, except that an integer past the
finite numbers is refused. -/
theorem compute_numeral {text : List Char} {n : Numeral} (hstart : startsNumber text)
    (hscan : Numeral.scan text = (n, [])) (hzeros : n.isWhole → n.hasLeadingZeros = false) :
    compute (.ofList text) =
      if n.isWhole ∧ magnitudeCount ≤ nearestIndex n.toDecimal.value then
        .error (.evaluation .intTooLarge)
      else .ok (ofIndex (nearestIndex n.toDecimal.value)) := by
  cases hwhole : n.isWhole with
  | false =>
    rw [if_neg (by simp)]
    have hspells := spells_of_not_whole hstart hscan hwhole
    rw [Decimal.toBinary64_eq_ofIndex] at hspells
    exact compute_single (c := .float _) hspells rfl
  | true =>
    have hvalue : n.toDecimal.value = n.toDecimal.coefficient := by
      rw [Numeral.toDecimal_of_whole hwhole, value, zpow_zero, mul_one]
    have hlimit : magnitudeCount ≤ nearestIndex n.toDecimal.value ↔
        leastInfinite ≤ n.toDecimal.coefficient := by
      rw [magnitudeCount_le_nearestIndex_iff (value_nonneg _), hvalue, Nat.cast_le]
    rw [compute_whole hstart hscan hwhole (hzeros hwhole)]
    by_cases hgreat : leastInfinite ≤ n.toDecimal.coefficient
    · rw [if_pos hgreat, if_pos ⟨rfl, hlimit.2 hgreat⟩]
    · rw [if_neg hgreat, if_neg fun hinfinite => hgreat (hlimit.1 hinfinite.2), hvalue, Binary64.ofNat,
        round_eq_ofIndex (Nat.cast_nonneg _)]

/-- Whatever finite number is printed, its text is computed to it again; cleaning lets the text pass if
the number is zero or of middling size, and else finds the mark of an exponent. What is read is always
the nearest number, of two that are equally near the one with the even index. -/
theorem resultText_reads_back :
    (∀ negative index,
      compute (finite negative index).resultText = .ok (finite negative index) ∧
        solve (finite negative index).resultText =
          if index.val = 0 ∨
              (10 : Rat) ^ (-4 : Int) ≤ magnitude index ∧ magnitude index < (10 : Rat) ^ (16 : Int) then
            .ok (finite negative index)
          else .error (.invalidCharacter 'e')) ∧
      ∀ text n, startsNumber text → Numeral.scan text = (n, []) →
        (n.isWhole → n.hasLeadingZeros = false) →
        ∃ index, Nearest n.toDecimal.value index ∧
          compute (.ofList text) =
            if n.isWhole ∧ magnitudeCount ≤ index then .error (.evaluation .intTooLarge)
            else .ok (ofIndex index) :=
  ⟨fun negative index => ⟨compute_resultText negative index, solve_resultText negative index⟩,
    fun _ n hstart hscan hzeros =>
      ⟨nearestIndex n.toDecimal.value, nearest_nearestIndex (value_nonneg _),
        compute_numeral hstart hscan hzeros⟩⟩

theorem resultText_reads_back_half :
    (-half).resultText = "-0.5" ∧ compute (-half).resultText = .ok (-half) ∧
      solve (-half).resultText = .ok (-half) ∧ startsNumber ['.', '5'] ∧
      Numeral.scan ['.', '5'] = (⟨[], some ['5'], none⟩, []) ∧
      Numeral.isWhole ⟨[], some ['5'], none⟩ = false ∧
      ∃ index, Nearest (Numeral.toDecimal ⟨[], some ['5'], none⟩).value index ∧
        compute (.ofList ['.', '5']) = .ok (ofIndex index) := by
  have htext : (-half).resultText = "-0.5" := by decide +kernel
  have hprinted := resultText_reads_back.1 true ⟨1022 * binade, by decide⟩
  rw [if_pos (by decide +kernel)] at hprinted
  have hscan : Numeral.scan ['.', '5'] = (⟨[], some ['5'], none⟩, []) := by decide
  obtain ⟨index, hnearest, hread⟩ := resultText_reads_back.2 ['.', '5'] _ rfl hscan nofun
  rw [if_neg (by simp [Numeral.isWhole])] at hread
  exact ⟨htext, hprinted.1, hprinted.2, rfl, hscan, rfl, index, hnearest, hread⟩

end Abacus
