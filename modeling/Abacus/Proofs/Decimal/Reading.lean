import Abacus.Decimal.Shortest
import Abacus.Proofs.Binary64.Rounding

namespace Abacus.Decimal

open Binary64

theorem ten_zpow_pos (e : Int) : (0 : Rat) < 10 ^ e := zpow_pos (by norm_num) e

theorem value_nonneg (d : Decimal) : 0 ≤ d.value :=
  mul_nonneg (Nat.cast_nonneg _) (ten_zpow_pos _).le

theorem value_pos {d : Decimal} (h : d.coefficient ≠ 0) : 0 < d.value :=
  mul_pos (by exact_mod_cast Nat.pos_of_ne_zero h) (ten_zpow_pos _)

theorem value_of_zero {d : Decimal} (h : d.coefficient = 0) : d.value = 0 := by
  unfold value
  rw [h, Nat.cast_zero, zero_mul]

theorem two_zpow_le_ten_zpow : (2 : Rat) ^ (1024 : Int) ≤ 10 ^ (309 : Int) := by
  have hnat : 2 ^ 1024 ≤ 10 ^ 309 := by decide +kernel
  rw [show (1024 : Int) = (1024 : Nat) by rfl, show (309 : Int) = (309 : Nat) by rfl, zpow_natCast,
    zpow_natCast]
  exact_mod_cast hnat

theorem ten_zpow_lt_two_zpow : (10 : Rat) ^ (-324 : Int) < 2 ^ (-1075 : Int) := by
  have hnat : 2 ^ 1075 < 10 ^ 324 := by decide +kernel
  rw [zpow_neg, zpow_neg, show (1075 : Int) = (1075 : Nat) by rfl,
    show (324 : Int) = (324 : Nat) by rfl, zpow_natCast, zpow_natCast]
  apply inv_strictAnti₀
  · positivity
  · exact_mod_cast hnat

theorem ten_zpow_le {a b : Int} (h : a ≤ b) : (10 : Rat) ^ a ≤ 10 ^ b :=
  zpow_le_zpow_right₀ (by norm_num) h

/-- A decimal is less than the power of ten at its point. -/
theorem value_lt (d : Decimal) : d.value < 10 ^ d.pointPosition := by
  have hdigits : d.coefficient < 10 ^ (Nat.toDigits 10 d.coefficient).length :=
    (Nat.length_toDigits_le_iff (by decide) Nat.length_toDigits_pos).1 (Nat.le_refl _)
  unfold value pointPosition
  rw [zpow_add₀ (by norm_num), zpow_natCast]
  apply mul_lt_mul_of_pos_right _ (ten_zpow_pos _)
  exact_mod_cast hdigits

/-- The digit before the point position is not zero. -/
theorem ten_zpow_le_value {d : Decimal} (h : d.coefficient ≠ 0) :
    (10 : Rat) ^ (d.pointPosition - 1) ≤ d.value := by
  obtain ⟨length, hlength⟩ := Nat.exists_eq_add_of_le' (Nat.length_toDigits_pos (b := 10)
    (n := d.coefficient))
  have hdigits : 10 ^ length ≤ d.coefficient := by
    rcases Nat.eq_zero_or_pos length with rfl | hpos
    · exact Nat.pos_of_ne_zero h
    · rw [← Nat.not_lt, ← Nat.length_toDigits_le_iff (by decide) hpos]
      omega
  have hposition : d.pointPosition - 1 = length + d.exponent := by
    unfold pointPosition
    omega
  unfold value
  rw [hposition, zpow_add₀ (by norm_num), zpow_natCast]
  apply mul_le_mul_of_nonneg_right _ (ten_zpow_pos _).le
  exact_mod_cast hdigits

/-- The digits of a decimal reach up to the power of ten under its point. -/
theorem ten_zpow_le_value_iff {d : Decimal} (h : d.coefficient ≠ 0) {k : Int} :
    (10 : Rat) ^ k ≤ d.value ↔ k < d.pointPosition := by
  constructor
  · intro hle
    exact (zpow_lt_zpow_iff_right₀ (by norm_num)).1 (lt_of_le_of_lt hle d.value_lt)
  · intro hlt
    exact le_trans (ten_zpow_le (Int.le_sub_one_of_lt hlt)) (ten_zpow_le_value h)

theorem le_value {d : Decimal} (h : d.coefficient ≠ 0) : (10 : Rat) ^ d.exponent ≤ d.value := by
  have hone : (1 : Rat) ≤ d.coefficient := by exact_mod_cast Nat.pos_of_ne_zero h
  calc (10 : Rat) ^ d.exponent
      = 1 * 10 ^ d.exponent := (one_mul _).symm
    _ ≤ d.value := mul_le_mul_of_nonneg_right hone (ten_zpow_pos _).le

theorem round_of_pos {v : Rat} (h : 0 < v) : Binary64.round false v = Binary64.ofMagnitude false v := by
  unfold Binary64.round
  rw [if_neg h.ne', if_neg h.le.not_gt]

/-- The shortcuts change nothing. -/
theorem toBinary64_eq_round (d : Decimal) : d.toBinary64 = Binary64.round false d.value := by
  unfold toBinary64
  split
  · rename_i hzero
    rw [value_of_zero hzero]
    rfl
  rename_i hzero
  have hpos := value_pos hzero
  split
  · rename_i hgreat
    have hle := le_nearestIndex_of_great
      (le_trans two_zpow_le_ten_zpow (le_trans (ten_zpow_le hgreat) (le_value hzero)))
    rw [round_of_pos hpos]
    unfold Binary64.ofMagnitude
    dsimp only
    rw [dif_neg (not_lt.2 hle)]
  split
  · rename_i htiny
    have hindex := nearestIndex_of_tiny hpos.le
      (lt_trans (lt_of_lt_of_le d.value_lt (ten_zpow_le htiny)) ten_zpow_lt_two_zpow)
    rw [round_of_pos hpos]
    unfold Binary64.ofMagnitude
    simp only [hindex]
    rfl
  · rfl

/-- A decimal nearest to the magnitude of an index is read as the number with that index. -/
theorem toBinary64_of_nearest {d : Decimal} {index : Fin magnitudeCount}
    (h : nearestIndex d.value = index) : d.toBinary64 = finite false index := by
  rw [toBinary64_eq_round]
  rcases d.value_nonneg.eq_or_lt with hzero | hpos
  · rw [← hzero] at h
    obtain rfl : index = ⟨0, by decide⟩ := Fin.ext h.symm
    rw [← hzero]
    rfl
  · rw [round_of_pos hpos]
    unfold Binary64.ofMagnitude
    simp only [h, index.isLt, dif_pos]

/-- A decimal is read as an unsigned number, which is finite or infinite. -/
theorem toBinary64_cases (d : Decimal) :
    d.toBinary64 = infinity false ∨ ∃ index, d.toBinary64 = finite false index := by
  by_cases h : nearestIndex d.value < magnitudeCount
  · exact .inr ⟨⟨nearestIndex d.value, h⟩, toBinary64_of_nearest rfl⟩
  · have hpos : 0 < d.value := by
      refine lt_of_le_of_ne d.value_nonneg fun hzero => h ?_
      rw [← hzero]
      decide
    rw [toBinary64_eq_round, round_of_pos hpos]
    unfold Binary64.ofMagnitude
    exact .inl (dif_neg h)

/-- A magnitude written out in full is that magnitude. -/
theorem value_ofMagnitude (index : Nat) : (ofMagnitude index).value = magnitude index := by
  unfold ofMagnitude magnitude value
  dsimp only
  generalize unitExponent index = unit
  generalize significand index = significand
  split
  · rename_i hunit
    obtain ⟨n, rfl⟩ := Int.eq_ofNat_of_zero_le hunit
    simp
  · rename_i hunit
    obtain ⟨n, hn⟩ := Int.eq_ofNat_of_zero_le (show 0 ≤ -unit by omega)
    obtain rfl : unit = -(n : Int) := by omega
    rw [neg_neg, Int.toNat_natCast, zpow_neg, zpow_neg, zpow_natCast, zpow_natCast,
      show (10 : Rat) = 5 * 2 by norm_num, mul_pow, Nat.pow_eq]
    push_cast
    field_simp

theorem readsAs_of_onGrid {index dropped : Nat} {exact d : Decimal}
    (h : onGrid index exact dropped = some d) : d.readsAs index := by
  unfold onGrid at h
  dsimp only at h
  split at h
  · rename_i hbelow habove
    cases h
    split
    · exact hbelow
    · exact habove
  · rename_i hbelow _
    cases h
    exact hbelow
  · rename_i _ habove
    cases h
    exact habove
  · cases h

/-- The shortest decimal of a magnitude is nearest to it. -/
theorem nearestIndex_shortest (index : Nat) : nearestIndex (shortest index).value = index := by
  unfold shortest
  dsimp only
  generalize hgrids : List.findSome? _ _ = found
  cases found with
  | none => rw [Option.getD_none, value_ofMagnitude, nearestIndex_magnitude]
  | some d =>
    obtain ⟨dropped, _, hgrid⟩ := List.exists_of_findSome?_eq_some hgrids
    exact beq_iff_eq.1 (readsAs_of_onGrid hgrid)

end Abacus.Decimal
