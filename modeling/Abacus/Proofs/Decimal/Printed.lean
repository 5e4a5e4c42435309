import Abacus.Proofs.Token.Literal

namespace Abacus

open Text Binary64

namespace Decimal

/-- The number that a row of digits stands for. -/
theorem ofDigitChars_zeros (zeros : Nat) (ds : List Char) :
    Nat.ofDigitChars 10 (List.replicate zeros '0' ++ ds) 0 = Nat.ofDigitChars 10 ds 0 := by
  rw [Nat.ofDigitChars_append, Nat.ofDigitChars_replicate_zero, Nat.mul_zero]

theorem ofDigitChars_append_zeros (ds : List Char) (zeros : Nat) :
    Nat.ofDigitChars 10 (ds ++ List.replicate zeros '0') 0 =
      10 ^ zeros * Nat.ofDigitChars 10 ds 0 := by
  rw [Nat.ofDigitChars_append, Nat.ofDigitChars_replicate_zero]

theorem isDigit_of_mem_zeros {zeros : Nat} : ∀ c ∈ List.replicate zeros '0', c.isDigit := by
  intro c hc
  rw [List.eq_of_mem_replicate hc]
  rfl

variable (d : Decimal)

/-- Only zeros are left out behind the significant digits. -/
theorem toDigits_eq_significant :
    ∃ zeros, Nat.toDigits 10 d.coefficient = d.significantDigits ++ List.replicate zeros '0' := by
  have hsplit := List.takeWhile_append_dropWhile (p := (· == '0'))
    (l := (Nat.toDigits 10 d.coefficient).reverse)
  have hzeros : (Nat.toDigits 10 d.coefficient).reverse.takeWhile (· == '0') =
      List.replicate ((Nat.toDigits 10 d.coefficient).reverse.takeWhile (· == '0')).length '0' := by
    apply List.eq_replicate_of_mem
    intro c hc
    exact beq_iff_eq.1 (List.all_eq_true.1 List.all_takeWhile c hc)
  refine ⟨((Nat.toDigits 10 d.coefficient).reverse.takeWhile (· == '0')).length, ?_⟩
  unfold significantDigits
  rw [← List.reverse_replicate, ← hzeros, ← List.reverse_append, hsplit, List.reverse_reverse]

theorem isDigit_of_mem_significantDigits : ∀ c ∈ d.significantDigits, c.isDigit := by
  obtain ⟨zeros, hdigits⟩ := d.toDigits_eq_significant
  intro c hc
  apply isDigit_of_mem_toDigits (n := d.coefficient)
  rw [hdigits]
  exact List.mem_append_left _ hc

/-- The last of the significant digits is not zero. -/
theorem clear_reverse_significantDigits : Clear (· == '0') d.significantDigits.reverse := by
  unfold significantDigits
  rw [List.reverse_reverse]
  exact clear_dropWhile

/-- The value is what the significant digits make, shifted to where the point is. -/
theorem value_eq_significant :
    d.value = Nat.ofDigitChars 10 d.significantDigits 0 *
      (10 : Rat) ^ (d.pointPosition - d.significantDigits.length) := by
  obtain ⟨zeros, hdigits⟩ := d.toDigits_eq_significant
  have hcoefficient := Nat.ofDigitChars_ten_toDigits (n := d.coefficient)
  rw [hdigits, ofDigitChars_append_zeros] at hcoefficient
  have hpoint : d.pointPosition - d.significantDigits.length = zeros + d.exponent := by
    unfold pointPosition
    rw [hdigits, List.length_append, List.length_replicate]
    omega
  rw [value, ← hcoefficient, hpoint, zpow_add₀ (by norm_num), zpow_natCast]
  push_cast
  ring

theorem significantDigits_ne_nil {d : Decimal} (h : d.coefficient ≠ 0) : d.significantDigits ≠ [] := by
  intro hnil
  have hvalue := d.value_eq_significant
  rw [hnil, Nat.ofDigitChars_nil, Nat.cast_zero, zero_mul] at hvalue
  exact (value_pos h).ne' hvalue

/-- A text is one number, written with a point or an exponent, whose decimal has this value. -/
def Denotes (text : List Char) (v : Rat) : Prop :=
  Token.startsNumber text ∧
    ∃ n, Numeral.scan text = (n, []) ∧ n.isWhole = false ∧ n.toDecimal.value = v

theorem denotes_point (literal : PointLiteral) : Denotes literal.chars literal.decimal.value := by
  have hstart := literal.startsNumber []
  rw [List.append_nil] at hstart
  exact ⟨hstart, _, literal.scan_chars, rfl, congrArg value literal.toDecimal_eq⟩

variable {d} {text whole fraction : List Char}

theorem withPoint_of_point : withPoint (whole ++ '.' :: fraction) = whole ++ '.' :: fraction := by
  simp [withPoint]

theorem withPoint_of_digits (h : ∀ c ∈ text, c.isDigit) : withPoint text = text ++ ['.', '0'] := by
  have hpoint : text.contains '.' = false := by
    rw [← Bool.not_eq_true, List.contains_iff_mem]
    intro hmem
    exact absurd (h '.' hmem) (by decide)
  rw [withPoint, hpoint]
  rfl

/-- There are digits on both sides of the point, and of all of them none but zeros around these. -/
structure Pads (literal : PointLiteral) (ds : List Char) : Prop where
  whole_ne_nil : literal.whole ≠ []
  fraction_ne_nil : literal.fraction ≠ []
  digits : ∃ front behind, literal.whole ++ literal.fraction =
    List.replicate front '0' ++ ds ++ List.replicate behind '0'

section Layout

variable {ds : List Char} {point : Int}

/-- Digits that begin behind the point. -/
theorem exists_point_before (hdigits : ∀ c ∈ ds, c.isDigit) (hne : ds ≠ []) (hpoint : point ≤ 0) :
    ∃ literal : PointLiteral,
      '0' :: '.' :: (List.replicate (-point).toNat '0' ++ ds) = literal.chars ∧
        literal.decimal.value = Nat.ofDigitChars 10 ds 0 * (10 : Rat) ^ (point - ds.length) ∧
        Pads literal ds := by
  have hfraction : ∀ c ∈ List.replicate (-point).toNat '0' ++ ds, c.isDigit := by
    intro c hc
    exact (List.mem_append.1 hc).elim (isDigit_of_mem_zeros c) (hdigits c)
  refine ⟨⟨['0'], _, by simp, hfraction, .inl (List.cons_ne_nil _ _)⟩, rfl, ?_,
    by simp, List.append_ne_nil_of_right_ne_nil _ hne, (-point).toNat + 1, 0, by simp [List.replicate_succ]⟩
  unfold PointLiteral.decimal value
  dsimp only
  rw [← List.append_assoc, show ['0'] = List.replicate 1 '0' by rfl, List.replicate_append_replicate,
    ofDigitChars_zeros, List.length_append, List.length_replicate]
  congr 2
  omega

/-- Digits that end before the point. -/
theorem exists_point_behind (hdigits : ∀ c ∈ ds, c.isDigit) (hne : ds ≠ []) (hpoint : 0 < point)
    (hshort : ds.length ≤ point.toNat) :
    ∃ literal : PointLiteral,
      withPoint (ds ++ List.replicate (point.toNat - ds.length) '0') = literal.chars ∧
        literal.decimal.value = Nat.ofDigitChars 10 ds 0 * (10 : Rat) ^ (point - ds.length) ∧
        Pads literal ds := by
  have hwhole : ∀ c ∈ ds ++ List.replicate (point.toNat - ds.length) '0', c.isDigit := by
    intro c hc
    exact (List.mem_append.1 hc).elim (hdigits c) (isDigit_of_mem_zeros c)
  have hshift : point - ds.length = ((point.toNat - ds.length + 1 : Nat) : Int) + -1 := by omega
  refine ⟨⟨_, ['0'], hwhole, by simp, .inr (List.cons_ne_nil _ _)⟩, withPoint_of_digits hwhole, ?_,
    List.append_ne_nil_of_left_ne_nil hne _, by simp, 0, point.toNat - ds.length + 1,
    by simp [List.replicate_succ']⟩
  unfold PointLiteral.decimal value
  dsimp only
  rw [List.append_assoc, show ['0'] = List.replicate 1 '0' by rfl, List.replicate_append_replicate,
    ofDigitChars_append_zeros, hshift, zpow_add₀ (by norm_num), zpow_natCast]
  push_cast
  change _ * (10 : Rat) ^ (-1 : Int) = _
  ring

/-- Digits on both sides of the point. -/
theorem exists_point_among (hdigits : ∀ c ∈ ds, c.isDigit) (hpoint : 0 < point)
    (hlong : point.toNat < ds.length) :
    ∃ literal : PointLiteral,
      ds.take point.toNat ++ '.' :: ds.drop point.toNat = literal.chars ∧
        literal.decimal.value = Nat.ofDigitChars 10 ds 0 * (10 : Rat) ^ (point - ds.length) ∧
        Pads literal ds := by
  have hdrop : ds.drop point.toNat ≠ [] := by
    rw [Ne, List.drop_eq_nil_iff]
    omega
  have htake : ds.take point.toNat ≠ [] := by
    rw [Ne, List.take_eq_nil_iff, not_or, ← List.length_eq_zero_iff]
    omega
  refine ⟨⟨_, _, fun c hc => hdigits c (List.mem_of_mem_take hc),
    fun c hc => hdigits c (List.mem_of_mem_drop hc), .inr hdrop⟩, rfl, ?_, htake, hdrop, 0, 0, by simp⟩
  unfold PointLiteral.decimal value
  dsimp only
  rw [List.take_append_drop, List.length_drop]
  congr 2
  omega

end Layout

/-- The positional layout puts zeros on the side where the digits do not reach the point. -/
theorem exists_point_positional {d : Decimal} (h : d.coefficient ≠ 0) :
    ∃ literal : PointLiteral, withPoint d.positional = literal.chars ∧
      literal.decimal.value = d.value ∧ Pads literal d.significantDigits := by
  have hdigits := d.isDigit_of_mem_significantDigits
  have hne := significantDigits_ne_nil h
  rw [d.value_eq_significant]
  unfold positional
  dsimp only
  split
  · rename_i hpoint
    obtain ⟨literal, htext, hrest⟩ := exists_point_before hdigits hne hpoint
    exact ⟨literal, (@withPoint_of_point ['0'] _).trans htext, hrest⟩
  split
  · rename_i hpoint hshort
    exact exists_point_behind hdigits hne (Int.not_le.1 hpoint) hshort
  · rename_i hpoint hlong
    obtain ⟨literal, htext, hrest⟩ :=
      exists_point_among hdigits (Int.not_le.1 hpoint) (Nat.lt_of_not_le hlong)
    exact ⟨literal, withPoint_of_point.trans htext, hrest⟩

/-- The digits of an exponent, with zeros in front to fill two. -/
def powerDigits (e : Int) : List Char :=
  List.replicate (2 - (Nat.toDigits 10 e.natAbs).length) '0' ++ Nat.toDigits 10 e.natAbs

theorem isDigit_of_mem_powerDigits {e : Int} : ∀ c ∈ powerDigits e, c.isDigit := by
  intro c hc
  exact (List.mem_append.1 hc).elim (isDigit_of_mem_zeros c) (isDigit_of_mem_toDigits c)

theorem ofDigitChars_powerDigits (e : Int) : Nat.ofDigitChars 10 (powerDigits e) 0 = e.natAbs := by
  rw [powerDigits, ofDigitChars_zeros, Nat.ofDigitChars_ten_toDigits]

theorem exponentText_eq (e : Int) :
    exponentText e = (if e < 0 then '-' else '+') :: powerDigits e := rfl

/-- An exponent is read as it is written. -/
theorem scanExponent_exponentText (e : Int) :
    Numeral.scanExponent ('e' :: exponentText e) = (some e, []) := by
  have hne : powerDigits e ≠ [] := List.append_ne_nil_of_right_ne_nil _ Nat.toDigits_ne_nil
  by_cases hnegative : e < 0
  · have hscan := Numeral.scanExponent_mark (.inl rfl) ['-'] _ [] (rfl : _ = (true, _)) hne
      isDigit_of_mem_powerDigits clear_nil
    rw [List.append_nil, ofDigitChars_powerDigits, if_pos rfl, show -(e.natAbs : Int) = e by omega]
      at hscan
    rwa [exponentText_eq, if_pos hnegative]
  · have hscan := Numeral.scanExponent_mark (.inl rfl) ['+'] _ [] (rfl : _ = (false, _)) hne
      isDigit_of_mem_powerDigits clear_nil
    rw [List.append_nil, ofDigitChars_powerDigits, if_neg (by decide),
      show (e.natAbs : Int) = e by omega] at hscan
    rwa [exponentText_eq, if_neg hnegative]

/-- The scientific layout has its point, if any, behind the first digit. -/
theorem denotes_scientific (h : d.coefficient ≠ 0) : Denotes d.scientific d.value := by
  have hdigits := d.isDigit_of_mem_significantDigits
  have hne := significantDigits_ne_nil h
  have hexponent := scanExponent_exponentText (d.pointPosition - 1)
  have hmark {p : Char → Bool} (hp : p 'e' = false) :
      Clear p ('e' :: exponentText (d.pointPosition - 1)) := clear_cons.2 hp
  rw [d.value_eq_significant]
  unfold scientific
  dsimp only
  generalize d.significantDigits = ds at *
  match ds with
  | [] => exact absurd rfl hne
  | [first] =>
    have hscan := Numeral.scan_digits hdigits (hmark rfl)
    rw [hexponent] at hscan
    refine ⟨Token.startsNumber_of_digits hdigits hne _, _, hscan, rfl, ?_⟩
    unfold Numeral.toDecimal value
    simp
  | first :: second :: rest =>
    obtain ⟨hfirst, hrest⟩ := List.forall_mem_cons.1 hdigits
    have hwhole : ∀ c ∈ [first], c.isDigit := List.forall_mem_singleton.2 hfirst
    have hscan := Numeral.scan_point hwhole hrest (hmark rfl)
    rw [hexponent] at hscan
    refine ⟨Token.startsNumber_of_digits hwhole (List.cons_ne_nil _ _) _, _, hscan, rfl, ?_⟩
    unfold Numeral.toDecimal value
    dsimp only [Option.getD, List.cons_append, List.nil_append]
    congr 2
    simp only [List.length_cons]
    omega

/-- A result is written positionally unless its leading digit is too far from the point. -/
def IsPositional (d : Decimal) : Prop := -4 ≤ d.pointPosition - 1 ∧ d.pointPosition - 1 < 16

theorem resultText_of_positional (h : d.IsPositional) : d.resultText = withPoint d.positional := if_pos h

theorem resultText_of_not_positional (h : ¬d.IsPositional) : d.resultText = d.scientific := if_neg h

theorem denotes_resultText (h : d.coefficient ≠ 0) : Denotes d.resultText d.value := by
  by_cases hlayout : d.IsPositional
  · obtain ⟨literal, htext, hvalue, _⟩ := exists_point_positional h
    rw [resultText_of_positional hlayout, htext, ← hvalue]
    exact denotes_point literal
  · rw [resultText_of_not_positional hlayout]
    exact denotes_scientific h

/-- Before the mark of the exponent there are digits and perhaps a point. -/
theorem exists_mantissa (d : Decimal) :
    ∃ mantissa power, d.scientific = mantissa ++ 'e' :: power ∧
      ∀ c ∈ mantissa, c.isDigit ∨ c = '.' := by
  have hdigits := d.isDigit_of_mem_significantDigits
  refine ⟨_, _, rfl, ?_⟩
  intro c hc
  split at hc
  · rename_i first second rest hcons
    rw [hcons] at hdigits
    rcases List.mem_cons.1 hc with rfl | hc
    · exact .inl (hdigits c List.mem_cons_self)
    rcases List.mem_cons.1 hc with rfl | hc
    · exact .inr rfl
    · exact .inl (hdigits c (List.mem_cons_of_mem first hc))
  · exact .inl (hdigits c hc)

/-- The shortest decimals are ordered as the magnitudes they stand for. -/
theorem value_shortest_strictMono : StrictMono fun index => (shortest index).value := by
  intro i j hless
  by_contra hle
  have hindex := nearestIndex_mono (value_nonneg _) (not_lt.1 hle)
  rw [nearestIndex_shortest, nearestIndex_shortest] at hindex
  omega

theorem le_value_shortest_iff {v : Rat} (hv : 0 ≤ v) (h : v ≤ (shortest (nearestIndex v)).value)
    {index : Nat} : v ≤ (shortest index).value ↔ nearestIndex v ≤ index := by
  constructor
  · intro hle
    have hindex := nearestIndex_mono hv hle
    rwa [nearestIndex_shortest] at hindex
  · intro hindex
    exact le_trans h (value_shortest_strictMono.monotone hindex)

/-- Where the layout changes, the decimals are on the same side as the magnitudes. -/
theorem least_le_value_shortest_iff {index : Nat} :
    (10 : Rat) ^ (-4 : Int) ≤ (shortest index).value ↔ (10 : Rat) ^ (-4 : Int) ≤ magnitude index := by
  rw [le_value_shortest_iff (by decide +kernel) (by decide +kernel),
    le_magnitude_iff (by decide +kernel) (by decide +kernel)]

theorem greatest_le_value_shortest_iff {index : Nat} :
    (10 : Rat) ^ (16 : Int) ≤ (shortest index).value ↔ (10 : Rat) ^ (16 : Int) ≤ magnitude index := by
  rw [le_value_shortest_iff (by decide +kernel) (by decide +kernel),
    le_magnitude_iff (by decide +kernel) (by decide +kernel)]

theorem coefficient_shortest_ne_zero {index : Nat} (h : index ≠ 0) :
    (shortest index).coefficient ≠ 0 := by
  intro hzero
  have hindex := nearestIndex_shortest index
  rw [value_of_zero hzero] at hindex
  exact h hindex.symm

theorem isPositional_shortest_iff {index : Nat} (h : index ≠ 0) :
    (shortest index).IsPositional ↔
      (10 : Rat) ^ (-4 : Int) ≤ magnitude index ∧ magnitude index < (10 : Rat) ^ (16 : Int) := by
  have hne := coefficient_shortest_ne_zero h
  rw [← least_le_value_shortest_iff, ← not_le, ← greatest_le_value_shortest_iff,
    ten_zpow_le_value_iff hne, ten_zpow_le_value_iff hne, IsPositional]
  omega

end Decimal

end Abacus
