import Abacus.Proofs.Decimal.Shortest

namespace Abacus

open Text Binary64

/-- A power of ten has a sign and two digits or more, without a zero in front of more than two. -/
structure ScientificLiteral where
  first : Char
  others : List Char
  negative : Bool
  power : List Char
  isDigit_first : first.isDigit
  isDigit_others : ∀ c ∈ others, c.isDigit
  isDigit_power : ∀ c ∈ power, c.isDigit
  two_le_length : 2 ≤ power.length
  head?_power_ne : 2 < power.length → power.head? ≠ some '0'

namespace ScientificLiteral

variable (literal : ScientificLiteral)

/-- There is a point only if there are digits behind it. -/
def fractionChars : List Char := if literal.others = [] then [] else '.' :: literal.others

def chars : List Char :=
  literal.first :: (literal.fractionChars ++
    'e' :: (if literal.negative then '-' else '+') :: literal.power)

def exponent : Int :=
  if literal.negative then -Nat.ofDigitChars 10 literal.power 0 else Nat.ofDigitChars 10 literal.power 0

def decimal : Decimal :=
  ⟨Nat.ofDigitChars 10 (literal.first :: literal.others) 0, literal.exponent - literal.others.length⟩

end ScientificLiteral

/-- How a positive number is laid out. -/
inductive Layout where
  | positional (literal : PointLiteral) (whole : literal.whole ≠ []) (fraction : literal.fraction ≠ [])
  | scientific (literal : ScientificLiteral)

namespace Layout

def chars : Layout → List Char
  | positional literal _ _ => literal.chars
  | scientific literal => literal.chars

/-- The digits on both sides of the point, those of a power of ten left out. -/
def digits : Layout → List Char
  | positional literal _ _ => literal.whole ++ literal.fraction
  | scientific literal => literal.first :: literal.others

/-- The number that is written. -/
def decimal : Layout → Decimal
  | positional literal _ _ => literal.decimal
  | scientific literal => literal.decimal

def isPositional : Layout → Bool
  | positional .. => true
  | scientific _ => false

/-- No layout has a sign in front. -/
theorem exists_chars_eq_cons (layout : Layout) :
    ∃ c rest, layout.chars = c :: rest ∧ c.isDigit := by
  cases layout with
  | positional literal hwhole hfraction =>
    obtain ⟨c, whole, hcons⟩ := List.exists_cons_of_ne_nil hwhole
    have hdigit := literal.isDigit_whole c (hcons ▸ List.mem_cons_self)
    refine ⟨c, whole ++ '.' :: literal.fraction, ?_, hdigit⟩
    rw [chars, PointLiteral.chars, hcons, List.cons_append]
  | scientific literal => exact ⟨literal.first, _, rfl, literal.isDigit_first⟩

end Layout

namespace Decimal

/-- Digits without the zeros in front and behind. -/
def trimZeros (ds : List Char) : List Char :=
  ((ds.dropWhile (· == '0')).reverse.dropWhile (· == '0')).reverse

theorem trimZeros_pad {ds : List Char} (front behind : Nat) (hne : ds ≠ [])
    (hhead : Clear (· == '0') ds) (hlast : Clear (· == '0') ds.reverse) :
    trimZeros (List.replicate front '0' ++ ds ++ List.replicate behind '0') = ds := by
  have hzeros {k : Nat} : ∀ c ∈ List.replicate k '0', (c == '0') = true := by
    intro c hc
    exact beq_iff_eq.2 (List.eq_of_mem_replicate hc)
  rw [trimZeros, List.append_assoc, dropWhile_append hzeros (hhead.append_of_ne_nil hne),
    List.reverse_append, List.reverse_replicate, dropWhile_append hzeros hlast, List.reverse_reverse]

variable {d : Decimal}

theorem clear_significantDigits (h : d.coefficient ≠ 0) : Clear (· == '0') d.significantDigits := by
  obtain ⟨zeros, hdigits⟩ := d.toDigits_eq_significant
  obtain ⟨first, others, hcons⟩ := List.exists_cons_of_ne_nil (significantDigits_ne_nil h)
  have hhead := head?_toDigits_ne h
  rw [hdigits, hcons, List.cons_append, List.head?_cons] at hhead
  rw [hcons, clear_cons, beq_eq_false_iff_ne]
  exact fun hzero => hhead (congrArg some hzero)

theorem trimZeros_significantDigits (h : d.coefficient ≠ 0) (front behind : Nat) :
    trimZeros (List.replicate front '0' ++ d.significantDigits ++ List.replicate behind '0') =
      d.significantDigits :=
  trimZeros_pad front behind (significantDigits_ne_nil h) (clear_significantDigits h)
    d.clear_reverse_significantDigits

/-- Two digits of an exponent are filled up with zeros, more are not. -/
theorem head?_powerDigits_ne {e : Int} (h : 2 < (powerDigits e).length) :
    (powerDigits e).head? ≠ some '0' := by
  have hlong : 2 < (Nat.toDigits 10 e.natAbs).length := by
    rw [powerDigits, List.length_append, List.length_replicate] at h
    omega
  have hne : e.natAbs ≠ 0 := by
    intro hzero
    simp [hzero] at hlong
  rw [powerDigits, Nat.sub_eq_zero_of_le hlong.le]
  exact head?_toDigits_ne hne

theorem two_le_length_powerDigits (e : Int) : 2 ≤ (powerDigits e).length := by
  rw [powerDigits, List.length_append, List.length_replicate]
  omega

/-- The scientific layout has the significant digits before the power of ten. -/
theorem exists_scientificLiteral (h : d.coefficient ≠ 0) :
    ∃ literal : ScientificLiteral, d.scientific = literal.chars ∧ literal.decimal.value = d.value ∧
      literal.first :: literal.others = d.significantDigits := by
  have hdigits := d.isDigit_of_mem_significantDigits
  obtain ⟨first, others, hcons⟩ := List.exists_cons_of_ne_nil (significantDigits_ne_nil h)
  rw [hcons, List.forall_mem_cons] at hdigits
  obtain ⟨hfirst, hothers⟩ := hdigits
  refine ⟨{ first, others, negative := decide (d.pointPosition - 1 < 0)
            power := powerDigits (d.pointPosition - 1)
            isDigit_first := hfirst
            isDigit_others := hothers
            isDigit_power := isDigit_of_mem_powerDigits
            two_le_length := two_le_length_powerDigits _
            head?_power_ne := head?_powerDigits_ne }, ?_, ?_, hcons.symm⟩
  · unfold scientific ScientificLiteral.chars ScientificLiteral.fractionChars
    dsimp only
    rw [hcons, exponentText_eq]
    cases others <;> simp
  · rw [d.value_eq_significant, hcons, ScientificLiteral.decimal, ScientificLiteral.exponent, value]
    dsimp only
    simp only [ofDigitChars_powerDigits, List.length_cons, decide_eq_true_eq]
    congr 2
    split <;> omega

/-- What is printed of a positive number: its layout, which has its value and its digits. -/
theorem exists_layout (h : d.coefficient ≠ 0) :
    ∃ layout : Layout, d.resultText = layout.chars ∧ layout.decimal.value = d.value ∧
      trimZeros layout.digits = d.significantDigits ∧ (layout.isPositional ↔ d.IsPositional) := by
  by_cases hlayout : d.IsPositional
  · obtain ⟨literal, htext, hvalue, hpads⟩ := exists_point_positional h
    obtain ⟨front, behind, hdigits⟩ := hpads.digits
    have htrim := trimZeros_significantDigits h front behind
    rw [← hdigits] at htrim
    exact ⟨.positional literal hpads.whole_ne_nil hpads.fraction_ne_nil,
      (resultText_of_positional hlayout).trans htext, hvalue, htrim, iff_of_true rfl hlayout⟩
  · obtain ⟨literal, htext, hvalue, hdigits⟩ := exists_scientificLiteral h
    have htrim : trimZeros (literal.first :: literal.others) = d.significantDigits := by
      simpa [hdigits] using trimZeros_significantDigits h 0 0
    exact ⟨.scientific literal, (resultText_of_not_positional hlayout).trans htext, hvalue, htrim,
      iff_of_false Bool.false_ne_true hlayout⟩

/-- A decimal with a sign. -/
def signedValue (negative : Bool) (d : Decimal) : Rat := if negative then -d.value else d.value

theorem abs_signedValue (negative : Bool) (d : Decimal) : |d.signedValue negative| = d.value := by
  cases negative with
  | false => exact abs_of_nonneg d.value_nonneg
  | true =>
    rw [signedValue, if_pos rfl, abs_neg]
    exact abs_of_nonneg d.value_nonneg

theorem abs_signedValue_sub (negative : Bool) (d : Decimal) (index : Nat) :
    |d.signedValue negative - signed negative index| = |d.value - magnitude index| := by
  cases negative with
  | false => rfl
  | true =>
    rw [signedValue, signed, if_pos rfl, if_pos rfl, neg_sub_neg, abs_sub_comm]

theorem signedValue_side_iff {negative side : Bool} (h : 0 < d.value) :
    (if negative then d.signedValue side ≤ 0 else 0 ≤ d.signedValue side) ↔ side = negative := by
  cases side <;> cases negative <;> simp [signedValue, h, h.le]

/-- A decimal with a sign is rounded to a number if it has the sign of it and reads as its magnitude. -/
theorem roundsTo_signedValue_iff {negative side : Bool} {index : Fin magnitudeCount}
    (h : index.val ≠ 0) :
    RoundsTo (d.signedValue side) (finite negative index) ↔
      side = negative ∧ nearestIndex d.value = index := by
  have hnearest := nearest_nearestIndex d.value_nonneg
  have hpos (hindex : nearestIndex d.value = index) : 0 < d.value :=
    value_pos (coefficient_ne_zero_of_reads h hindex)
  rw [RoundsTo, abs_signedValue]
  constructor
  · intro ⟨hsign, hreads⟩
    have hindex := hnearest.unique hreads
    exact ⟨(signedValue_side_iff (hpos hindex)).1 hsign, hindex⟩
  · intro ⟨hside, hindex⟩
    rw [hindex] at hnearest
    exact ⟨(signedValue_side_iff (hpos hindex)).2 hside, hnearest⟩

end Decimal

open Decimal

theorem Binary64.signed_neg_iff {negative : Bool} {index : Nat} (h : index ≠ 0) :
    signed negative index < 0 ↔ negative := by
  have hpos := magnitude_pos h
  cases negative with
  | false => simpa [signed] using hpos.le
  | true => simpa [signed] using hpos

/-- The sign is a minus, and only in front of a negative number. -/
theorem Layout.head?_withSign_iff (layout : Layout) (negative : Bool) :
    (withSign negative layout.chars).head? = some '-' ↔ negative := by
  obtain ⟨c, rest, hcons, hdigit⟩ := layout.exists_chars_eq_cons
  have hne : c ≠ '-' := by
    rintro rfl
    exact absurd hdigit (by decide)
  cases negative <;> simp [withSign, hcons, hne]

/-- A finite number that is not zero is printed with the fewest digits that are rounded to it, and with
the closest of those as many: positionally, with digits on both sides of the point, from `10 ^ -4` on and
below `10 ^ 16`, with one digit and a power of ten elsewhere, and with a sign if it is negative. -/
theorem Binary64.resultText_shortest (negative : Bool) (index : Fin magnitudeCount) (h : index.val ≠ 0) :
    ∃ layout : Layout,
      (finite negative index).resultText = .ofList (withSign negative layout.chars) ∧
        ((finite negative index).resultText.toList.head? = some '-' ↔ signed negative index < 0) ∧
        (layout.isPositional ↔
          (10 : Rat) ^ (-4 : Int) ≤ |signed negative index| ∧ |signed negative index| < 10 ^ (16 : Int)) ∧
        RoundsTo (layout.decimal.signedValue negative) (finite negative index) ∧
        ∀ side (d : Decimal), RoundsTo (d.signedValue side) (finite negative index) →
          (trimZeros layout.digits).length ≤ d.significantDigits.length ∧
            (d.significantDigits.length = (trimZeros layout.digits).length →
              |layout.decimal.signedValue negative - signed negative index| ≤
                |d.signedValue side - signed negative index|) := by
  obtain ⟨layout, hlaid, hvalue, hdigits, hpositional⟩ := exists_layout (coefficient_shortest_ne_zero h)
  have htext : (finite negative index).resultText = .ofList (withSign negative layout.chars) := by
    rw [resultText, resultChars, if_neg h, hlaid]
  refine ⟨layout, htext, ?_, ?_, ?_, ?_⟩
  · rw [htext, String.toList_ofList, layout.head?_withSign_iff, signed_neg_iff h]
  · rw [hpositional, isPositional_shortest_iff h, abs_signed]
  · rw [roundsTo_signedValue_iff h, hvalue]
    exact ⟨rfl, nearestIndex_shortest index⟩
  · intro side d hrounds
    obtain ⟨rfl, hreads⟩ := (roundsTo_signedValue_iff h).1 hrounds
    rw [hdigits, abs_signedValue_sub, abs_signedValue_sub, hvalue]
    exact ⟨length_shortest_le h hreads, abs_shortest_sub_le h hreads⟩

/-- No number with one digit is closer to the least magnitude than the one printed. -/
theorem Binary64.resultText_shortest_least :
    (finite true ⟨1, by decide⟩).resultText = "-5e-324" ∧ (1 : Nat) ≠ 0 ∧
      ∃ layout : Layout, (finite true ⟨1, by decide⟩).resultText = .ofList (withSign true layout.chars) ∧
        layout.isPositional = false ∧
        ∀ d : Decimal, RoundsTo (d.signedValue true) (finite true ⟨1, by decide⟩) →
          d.significantDigits.length = (trimZeros layout.digits).length →
            |layout.decimal.signedValue true - signed true 1| ≤ |d.signedValue true - signed true 1| := by
  have htext : (finite true ⟨1, by decide⟩).resultText = "-5e-324" := by decide +kernel
  obtain ⟨layout, hlaid, _, hpositional, _, hshortest⟩ :=
    resultText_shortest true ⟨1, by decide⟩ Nat.one_ne_zero
  refine ⟨htext, Nat.one_ne_zero, layout, hlaid, ?_, fun d hrounds => (hshortest true d hrounds).2⟩
  have hsmall : |signed true 1| < (10 : Rat) ^ (-4 : Int) := by decide +kernel
  rw [← Bool.not_eq_true, hpositional, not_and_or]
  exact .inl hsmall.not_ge

end Abacus
