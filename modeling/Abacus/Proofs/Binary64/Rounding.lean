import Mathlib.Data.Rat.Floor
import Mathlib.Tactic.Linarith
import Mathlib.Tactic.Positivity
import Mathlib.Tactic.NormNum
import Mathlib.Tactic.Ring
import Mathlib.Tactic.FieldSimp
import Abacus.Binary64.Rounding

namespace Abacus.Binary64

theorem two_zpow_pos (e : Int) : (0 : Rat) < 2 ^ e := zpow_pos (by norm_num) e

theorem two_zpow_add (a b : Int) : (2 : Rat) ^ (a + b) = 2 ^ a * 2 ^ b :=
  zpow_add₀ (by norm_num) a b

theorem lt_of_two_zpow_lt {a b : Int} (h : (2 : Rat) ^ a < 2 ^ b) : a < b :=
  (zpow_lt_zpow_iff_right₀ (by norm_num)).1 h

/-- The difference of the lengths of numerator and denominator is the exponent or one more. -/
theorem guess_bounds {v : Rat} (hv : 0 < v) :
    (2 : Rat) ^ ((v.num.natAbs.log2 : Int) - v.den.log2 - 1) ≤ v ∧
      v < (2 : Rat) ^ ((v.num.natAbs.log2 : Int) - v.den.log2 + 1) := by
  have hnum : v.num.natAbs ≠ 0 := Int.natAbs_ne_zero.2 (Rat.num_pos.2 hv).ne'
  have hden : (0 : Rat) < v.den := by exact_mod_cast v.pos
  have hdiv : v = v.num.natAbs / v.den := by
    rw [← Int.cast_natCast, Int.natAbs_of_nonneg (Rat.num_pos.2 hv).le]
    exact (Rat.num_div_den v).symm
  have hnumLow : (2 : Rat) ^ (v.num.natAbs.log2 : Int) ≤ v.num.natAbs := by
    rw [zpow_natCast]
    exact_mod_cast Nat.log2_self_le hnum
  have hnumHigh : (v.num.natAbs : Rat) < 2 ^ ((v.num.natAbs.log2 : Int) + 1) := by
    rw [← Nat.cast_succ, zpow_natCast]
    exact_mod_cast Nat.lt_log2_self
  have hdenLow : (2 : Rat) ^ (v.den.log2 : Int) ≤ v.den := by
    rw [zpow_natCast]
    exact_mod_cast Nat.log2_self_le v.den_nz
  have hdenHigh : (v.den : Rat) < 2 ^ ((v.den.log2 : Int) + 1) := by
    rw [← Nat.cast_succ, zpow_natCast]
    exact_mod_cast Nat.lt_log2_self
  generalize (v.num.natAbs.log2 : Int) = a at *
  generalize (v.den.log2 : Int) = b at *
  constructor
  · rw [hdiv, le_div_iff₀ hden]
    calc (2 : Rat) ^ (a - b - 1) * v.den
        ≤ 2 ^ (a - b - 1) * 2 ^ (b + 1) :=
          mul_le_mul_of_nonneg_left hdenHigh.le (two_zpow_pos _).le
      _ = 2 ^ a := by rw [← two_zpow_add]; congr 1; ring
      _ ≤ v.num.natAbs := hnumLow
  · rw [hdiv, div_lt_iff₀ hden]
    calc (v.num.natAbs : Rat)
        < 2 ^ (a + 1) := hnumHigh
      _ = 2 ^ (a - b + 1) * 2 ^ b := by rw [← two_zpow_add]; congr 1; ring
      _ ≤ 2 ^ (a - b + 1) * v.den := mul_le_mul_of_nonneg_left hdenLow (two_zpow_pos _).le

/-- The binade of a positive rational. -/
theorem binaryExponent_spec {v : Rat} (hv : 0 < v) :
    (2 : Rat) ^ binaryExponent v ≤ v ∧ v < (2 : Rat) ^ (binaryExponent v + 1) := by
  obtain ⟨hlow, hhigh⟩ := guess_bounds hv
  unfold binaryExponent
  dsimp only
  split
  · exact ⟨‹_›, hhigh⟩
  · rename_i h
    refine ⟨hlow, ?_⟩
    rw [sub_add_cancel]
    exact not_le.1 h

theorem binaryExponent_eq {v : Rat} {e : Int} (hlow : (2 : Rat) ^ e ≤ v)
    (hhigh : v < (2 : Rat) ^ (e + 1)) : binaryExponent v = e := by
  obtain ⟨hlow', hhigh'⟩ := binaryExponent_spec (lt_of_lt_of_le (two_zpow_pos e) hlow)
  have hle := lt_of_two_zpow_lt (lt_of_le_of_lt hlow hhigh')
  have hge := lt_of_two_zpow_lt (lt_of_le_of_lt hlow' hhigh)
  omega

theorem roundHalfEven_natCast (n : Nat) : roundHalfEven n = n := by
  have hfloor : (n : Rat).floor.toNat = n := by
    rw [← Int.cast_natCast, Rat.floor_intCast, Int.toNat_natCast]
  unfold roundHalfEven
  dsimp only
  rw [hfloor, sub_self, if_pos (.inl (by norm_num))]

theorem le_roundHalfEven {n : Nat} {v : Rat} (h : (n : Rat) ≤ v) : n ≤ roundHalfEven v := by
  have hfloor : n ≤ v.floor.toNat := by
    have : (n : Int) ≤ v.floor := Rat.le_floor_iff.2 (by exact_mod_cast h)
    omega
  unfold roundHalfEven
  dsimp only
  split
  · exact hfloor
  · exact Nat.le_succ_of_le hfloor

theorem roundHalfEven_of_small {v : Rat} (hnonneg : 0 ≤ v) (h : v < 1 / 2) : roundHalfEven v = 0 := by
  have hfloor : v.floor = 0 := Int.floor_eq_zero_iff.2 ⟨hnonneg, by linarith⟩
  unfold roundHalfEven
  dsimp only
  rw [hfloor, Int.toNat_zero, Nat.cast_zero, sub_zero, if_pos (.inl h)]

theorem nearestIndex_of_pos {v : Rat} (hv : 0 < v) {unit : Int}
    (hunit : max (binaryExponent v - 52) (-1074) = unit) :
    nearestIndex v = (unit + 1074).toNat * binade + roundHalfEven (v / 2 ^ unit) := by
  unfold nearestIndex
  rw [if_neg hv.ne']
  dsimp only
  rw [hunit]

/-- Below the first full binade all magnitudes have the same unit. -/
theorem max_exponent_of_subnormal {v : Rat} (hv : 0 < v) (h : v < 2 ^ (-1022 : Int)) :
    max (binaryExponent v - 52) (-1074) = -1074 := by
  have hlt := lt_of_two_zpow_lt (lt_of_le_of_lt (binaryExponent_spec hv).1 h)
  omega

theorem magnitude_zero : magnitude 0 = 0 := by
  rw [magnitude, show significand 0 = 0 from rfl, Nat.cast_zero, zero_mul]

theorem magnitude_pos {index : Nat} (h : index ≠ 0) : 0 < magnitude index := by
  have hsignificand : 0 < significand index := by
    unfold significand binade
    split <;> omega
  unfold magnitude
  exact mul_pos (by exact_mod_cast hsignificand) (two_zpow_pos _)

theorem unitExponent_of_subnormal {index : Nat} (h : index < binade) :
    unitExponent index = -1074 := by
  unfold unitExponent
  rw [Nat.div_eq_of_lt h]
  rfl

theorem magnitude_lt_of_subnormal {index : Nat} (h : index < binade) :
    magnitude index < 2 ^ (-1022 : Int) := by
  have hsignificand : significand index = index := if_pos h
  unfold magnitude
  rw [unitExponent_of_subnormal h, hsignificand, show (-1022 : Int) = 52 + -1074 by rfl,
    two_zpow_add]
  apply mul_lt_mul_of_pos_right _ (two_zpow_pos _)
  have hcast : (index : Rat) < binade := by exact_mod_cast h
  exact lt_of_lt_of_le hcast (by norm_num [binade])

/-- Outside the subnormal magnitudes the significand has all of its 53 bits. -/
theorem binaryExponent_magnitude {index : Nat} (h : binade ≤ index) :
    binaryExponent (magnitude index) = unitExponent index + 52 := by
  have hsignificand : significand index = binade + index % binade := if_neg (not_lt.2 h)
  have hbinade : (binade : Rat) = 2 ^ (52 : Int) := by norm_num [binade]
  apply binaryExponent_eq
  · unfold magnitude
    rw [add_comm, two_zpow_add, hsignificand, ← hbinade]
    apply mul_le_mul_of_nonneg_right _ (two_zpow_pos _).le
    exact_mod_cast Nat.le_add_right _ _
  · unfold magnitude
    rw [show unitExponent index + 52 + 1 = 53 + unitExponent index by ring, two_zpow_add,
      hsignificand]
    apply mul_lt_mul_of_pos_right _ (two_zpow_pos _)
    have hmod := Nat.mod_lt index (by decide : 0 < binade)
    have hcast : ((binade + index % binade : Nat) : Rat) < (2 * binade : Nat) := by
      exact_mod_cast (by omega : binade + index % binade < 2 * binade)
    exact lt_of_lt_of_le hcast (by norm_num [binade])

/-- Every magnitude is the nearest to itself. -/
theorem nearestIndex_magnitude (index : Nat) : nearestIndex (magnitude index) = index := by
  by_cases hzero : index = 0
  · rw [hzero, magnitude_zero]
    rfl
  have hpos := magnitude_pos hzero
  have hdiv : magnitude index / 2 ^ unitExponent index = significand index :=
    mul_div_cancel_right₀ _ (two_zpow_pos _).ne'
  by_cases hsmall : index < binade
  · have hunit := unitExponent_of_subnormal hsmall
    have hsignificand : significand index = index := if_pos hsmall
    have hmax := max_exponent_of_subnormal hpos (magnitude_lt_of_subnormal hsmall)
    rw [nearestIndex_of_pos hpos hmax, ← hunit, hdiv, hunit, roundHalfEven_natCast, hsignificand]
    exact Nat.zero_add index
  · have hquotient : 1 ≤ index / binade :=
      (Nat.one_le_div_iff (by decide : 0 < binade)).2 (not_lt.1 hsmall)
    have hunit : unitExponent index = (index / binade : Nat) - 1075 := by
      unfold unitExponent
      omega
    have hsignificand : significand index = binade + index % binade := if_neg hsmall
    have hmax : max (binaryExponent (magnitude index) - 52) (-1074) = unitExponent index := by
      rw [binaryExponent_magnitude (not_lt.1 hsmall)]
      omega
    rw [nearestIndex_of_pos hpos hmax, hdiv, roundHalfEven_natCast, hsignificand]
    have hshift : (unitExponent index + 1074).toNat = index / binade - 1 := by omega
    have hsplit : (index / binade - 1) * binade + binade = index / binade * binade := by
      rw [← Nat.succ_mul, Nat.succ_eq_add_one, Nat.sub_add_cancel hquotient]
    have hdecomposed := Nat.div_add_mod' index binade
    rw [hshift]
    omega

/-- From `2 ^ 1024` on, no finite magnitude is the nearest. -/
theorem le_nearestIndex_of_great {v : Rat} (h : (2 : Rat) ^ (1024 : Int) ≤ v) :
    magnitudeCount ≤ nearestIndex v := by
  have hpos : 0 < v := lt_of_lt_of_le (two_zpow_pos _) h
  obtain ⟨hlow, hhigh⟩ := binaryExponent_spec hpos
  have hexponent := lt_of_two_zpow_lt (lt_of_le_of_lt h hhigh)
  have hmax : max (binaryExponent v - 52) (-1074) = binaryExponent v - 52 := by omega
  rw [nearestIndex_of_pos hpos hmax]
  have hround : binade ≤ roundHalfEven (v / 2 ^ (binaryExponent v - 52)) := by
    apply le_roundHalfEven
    rw [le_div_iff₀ (two_zpow_pos _), show (binade : Rat) = 2 ^ (52 : Int) by norm_num [binade],
      ← two_zpow_add, show 52 + (binaryExponent v - 52) = binaryExponent v by ring]
    exact hlow
  have hshift : 2046 ≤ (binaryExponent v - 52 + 1074).toNat := by omega
  have hproduct := Nat.mul_le_mul_right binade hshift
  unfold magnitudeCount
  omega

/-- What is under half the least magnitude is nearest to zero. -/
theorem nearestIndex_of_tiny {v : Rat} (hnonneg : 0 ≤ v) (h : v < 2 ^ (-1075 : Int)) :
    nearestIndex v = 0 := by
  rcases hnonneg.eq_or_lt with rfl | hpos
  · rfl
  have hsubnormal : v < 2 ^ (-1022 : Int) :=
    lt_trans h (zpow_lt_zpow_right₀ (by norm_num) (by decide))
  rw [nearestIndex_of_pos hpos (max_exponent_of_subnormal hpos hsubnormal), roundHalfEven_of_small]
  · rfl
  · exact div_nonneg hnonneg (two_zpow_pos _).le
  · rw [div_lt_iff₀ (two_zpow_pos _)]
    apply lt_of_lt_of_le h
    rw [show (-1075 : Int) = -1 + -1074 by rfl, two_zpow_add]
    norm_num

end Abacus.Binary64
