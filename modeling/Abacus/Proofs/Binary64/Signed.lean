import Abacus.Proofs.Binary64.Representable

namespace Abacus.Binary64

variable {u v : Rat} {e : Int}

/-- `x` is the binary64 nearest to `v`, and of two that are equally near the one with the even
index. Infinities stand for the magnitudes past the finite ones. -/
def RoundsTo (v : Rat) : Binary64 → Prop
  | nan => False
  | infinity negative =>
    (if negative then v ≤ 0 else 0 ≤ v) ∧ ∃ index, magnitudeCount ≤ index ∧ Nearest |v| index
  | finite negative index => (if negative then v ≤ 0 else 0 ≤ v) ∧ Nearest |v| index

theorem round_eq_ofMagnitude (z : Bool) (v : Rat) :
    round z v = ofMagnitude (if v = 0 then z else decide (v < 0)) |v| := by
  unfold round
  split
  · rename_i hzero
    rw [hzero, abs_zero]
    rfl
  split
  · rename_i hneg
    rw [decide_eq_true hneg, abs_of_neg hneg]
  · rename_i hnonneg
    rw [decide_eq_false hnonneg, abs_of_nonneg (not_lt.1 hnonneg)]

theorem ofMagnitude_roundsTo {s : Bool} (hs : if s then v ≤ 0 else 0 ≤ v) :
    RoundsTo v (ofMagnitude s |v|) := by
  have hnearest := nearest_nearestIndex (abs_nonneg v)
  unfold ofMagnitude
  dsimp only
  split
  · exact ⟨hs, hnearest⟩
  · exact ⟨hs, _, not_lt.1 ‹_›, hnearest⟩

/-- Rounding gives the nearest number. -/
theorem round_roundsTo (z : Bool) (v : Rat) : RoundsTo v (round z v) := by
  rw [round_eq_ofMagnitude]
  apply ofMagnitude_roundsTo
  rcases lt_trichotomy v 0 with hneg | rfl | hpos
  · rw [if_neg hneg.ne, decide_eq_true hneg]
    exact hneg.le
  · rw [if_pos rfl]
    split <;> exact le_rfl
  · rw [if_neg hpos.ne', decide_eq_false hpos.not_gt]
    exact hpos.le

/-- The nearest number is one, but for the sign of zero. -/
theorem RoundsTo.unique {x y : Binary64} (hx : RoundsTo v x) (hy : RoundsTo v y)
    (hsign : x.isNegative = y.isNegative) : x = y := by
  cases x with
  | nan => exact hx.elim
  | infinity s =>
    obtain ⟨_, i, hi, hnearest⟩ := hx
    cases y with
    | nan => exact hy.elim
    | infinity t => exact congrArg infinity hsign
    | finite t j => exact absurd j.isLt (hnearest.unique hy.2 ▸ hi).not_gt
  | finite s i =>
    cases y with
    | nan => exact hy.elim
    | infinity t =>
      obtain ⟨_, j, hj, hnearest⟩ := hy
      exact absurd i.isLt (hnearest.unique hx.2 ▸ hj).not_gt
    | finite t j => exact congrArg₂ finite hsign (Fin.ext (hx.2.unique hy.2))

theorem round_ne_nan (z : Bool) (v : Rat) : round z v ≠ nan := by
  intro h
  have hrounds := round_roundsTo z v
  rwa [h] at hrounds

theorem ne_nan_of_exists_round {x : Binary64} (h : ∃ z, x = round z v) : x ≠ nan := by
  obtain ⟨z, rfl⟩ := h
  exact round_ne_nan z v

/-- A rounded number has the sign of the rational. -/
theorem isNegative_round (z : Bool) (v : Rat) :
    (round z v).isNegative = if v = 0 then z else decide (v < 0) := by
  rw [round_eq_ofMagnitude]
  unfold ofMagnitude
  dsimp only
  split <;> rfl

/-- The nearest rational with a magnitude of any index, past the finite ones too. -/
def rounded (v : Rat) : Rat := signed (decide (v < 0)) (nearestIndex |v|)

theorem rounded_of_nonneg (h : 0 ≤ v) : rounded v = magnitude (nearestIndex |v|) := by
  unfold rounded
  rw [decide_eq_false h.not_gt]
  rfl

theorem rounded_of_neg (h : v < 0) : rounded v = -magnitude (nearestIndex |v|) := by
  unfold rounded
  rw [decide_eq_true h]
  rfl

theorem abs_rounded (v : Rat) : |rounded v| = magnitude (nearestIndex |v|) := abs_signed _ _

theorem abs_rounded_sub (v : Rat) : |rounded v - v| = |(|v| - magnitude (nearestIndex |v|))| := by
  rcases lt_or_ge v 0 with hneg | hnonneg
  · rw [rounded_of_neg hneg, abs_of_neg hneg]
    congr 1
    ring
  · rw [rounded_of_nonneg hnonneg, abs_of_nonneg hnonneg, abs_sub_comm]

theorem value?_round_of_lt (z : Bool) (h : nearestIndex |v| < magnitudeCount) :
    (round z v).value? = some (rounded v) := by
  rw [round_eq_ofMagnitude]
  unfold ofMagnitude
  dsimp only
  rw [dif_pos h]
  by_cases hzero : v = 0
  · obtain rfl := hzero
    rw [if_pos rfl, rounded_of_nonneg le_rfl]
    simp only [value?, abs_zero]
    have hindex : nearestIndex 0 = 0 := rfl
    rw [hindex]
    cases z <;> simp [signed, magnitude_zero]
  · rw [if_neg hzero]
    rfl

theorem nearestIndex_le {index : Nat} (hv : 0 ≤ v) (h : v ≤ magnitude index) :
    nearestIndex v ≤ index := by
  have hmono := nearestIndex_mono hv h
  rwa [nearestIndex_magnitude] at hmono

/-- What is no greater than a representable number is rounded to a finite one. -/
theorem nearestIndex_lt (hu : Representable u) (h : |v| ≤ |u|) : nearestIndex |v| < magnitudeCount := by
  obtain ⟨index, hindex, hmagnitude⟩ := representable_iff.1 hu
  rw [← hmagnitude] at h
  exact lt_of_le_of_lt (nearestIndex_le (abs_nonneg v) h) hindex

theorem value?_round (z : Bool) (hu : Representable u) (h : |v| ≤ |u|) :
    (round z v).value? = some (rounded v) :=
  value?_round_of_lt z (nearestIndex_lt hu h)

theorem round_cases (z : Bool) (v : Rat) :
    (round z v).value? = some (rounded v) ∨ ∃ s, round z v = infinity s := by
  by_cases h : nearestIndex |v| < magnitudeCount
  · exact .inl (value?_round_of_lt z h)
  · rw [round_eq_ofMagnitude]
    exact .inr ⟨_, dif_neg h⟩

theorem value?_round_of_isFinite {z : Bool} (h : (round z v).isFinite) :
    (round z v).value? = some (rounded v) := by
  rcases round_cases z v with hvalue | ⟨s, hinfinite⟩
  · exact hvalue
  · rw [hinfinite] at h
    cases h

/-- No representable number is nearer than the rounded one. -/
theorem abs_rounded_sub_le (hu : Representable u) : |rounded v - v| ≤ |u - v| := by
  obtain ⟨index, _, hmagnitude⟩ := representable_iff.1 hu
  have hnearest : |(|v| - magnitude (nearestIndex |v|))| ≤ |(|v| - magnitude index)| := by
    by_cases heq : index = nearestIndex |v|
    · rw [heq]
    · rcases nearest_nearestIndex (abs_nonneg v) index heq with hless | ⟨hsame, _⟩
      · exact hless.le
      · exact hsame.le
  calc |rounded v - v| = |(|v| - magnitude (nearestIndex |v|))| := abs_rounded_sub v
    _ ≤ |(|v| - |u|)| := by rwa [← hmagnitude]
    _ ≤ |u - v| := by
      rw [abs_sub_comm u v]
      exact abs_abs_sub_abs_le v u

theorem abs_rounded_le (hu : Representable u) (h : |v| ≤ |u|) : |rounded v| ≤ |u| := by
  obtain ⟨index, _, hmagnitude⟩ := representable_iff.1 hu
  rw [← hmagnitude] at h
  rw [abs_rounded, ← hmagnitude]
  exact magnitude_strictMono.monotone (nearestIndex_le (abs_nonneg v) h)

/-- Only zero is rounded to zero among the multiples of the least magnitude. -/
theorem rounded_eq_zero_iff (hgrid : OnGrid (-1074) v) : rounded v = 0 ↔ v = 0 := by
  constructor
  · intro hzero
    by_contra hne
    have hleast := hgrid.two_zpow_le hne
    rw [← magnitude_one] at hleast
    have hmono := nearestIndex_mono (magnitude_nonneg 1) hleast
    rw [nearestIndex_magnitude] at hmono
    rw [← abs_eq_zero, abs_rounded, magnitude_eq_zero_iff] at hzero
    omega
  · rintro rfl
    rw [rounded_of_nonneg le_rfl, abs_zero]
    exact magnitude_zero

theorem rounded_of_representable (h : Representable v) : rounded v = v := by
  have hle := abs_rounded_sub_le (v := v) h
  rw [sub_self, abs_zero] at hle
  exact sub_eq_zero.1 (abs_nonpos_iff.1 hle)

theorem rounded_le (hu : Representable u) (h : v ≤ u) : rounded v ≤ u := by
  by_contra hgreater
  rw [not_le] at hgreater
  have hle := abs_rounded_sub_le (v := v) hu
  rw [abs_of_nonneg (by linarith), abs_of_nonneg (by linarith)] at hle
  linarith

theorem le_rounded (hu : Representable u) (h : u ≤ v) : u ≤ rounded v := by
  by_contra hless
  rw [not_le] at hless
  have hle := abs_rounded_sub_le (v := v) hu
  rw [abs_of_nonpos (by linarith), abs_of_nonpos (by linarith)] at hle
  linarith

theorem rounded_mono (h : u ≤ v) : rounded u ≤ rounded v := by
  rcases lt_or_ge u 0 with huneg | hunonneg
  · rcases lt_or_ge v 0 with hvneg | hvnonneg
    · rw [rounded_of_neg huneg, rounded_of_neg hvneg, neg_le_neg_iff]
      apply magnitude_strictMono.monotone
      apply nearestIndex_mono (abs_nonneg v)
      rw [abs_of_neg huneg, abs_of_neg hvneg]
      exact neg_le_neg h
    · rw [rounded_of_neg huneg, rounded_of_nonneg hvnonneg]
      exact (neg_nonpos.2 (magnitude_nonneg _)).trans (magnitude_nonneg _)
  · have hvnonneg := hunonneg.trans h
    rw [rounded_of_nonneg hunonneg, rounded_of_nonneg hvnonneg]
    apply magnitude_strictMono.monotone
    apply nearestIndex_mono (abs_nonneg u)
    rwa [abs_of_nonneg hunonneg, abs_of_nonneg hvnonneg]

/-- The nearest magnitude to a positive number is found by rounding in units of its last place. -/
theorem magnitude_nearestIndex (hv : 0 < v) :
    ∃ k : Nat, magnitude (nearestIndex v) =
        roundHalfEven (v / 2 ^ ((k : Int) - 1074)) * 2 ^ ((k : Int) - 1074) ∧
      (k = 0 ∨ (binade : Rat) ≤ v / 2 ^ ((k : Int) - 1074)) := by
  obtain ⟨k, hindex, hfull, hless⟩ := nearestIndex_join hv
  refine ⟨k, ?_, hfull⟩
  have hnonneg : 0 ≤ v / 2 ^ ((k : Int) - 1074) := (div_pos hv (two_zpow_pos _)).le
  rw [hindex]
  exact magnitude_join (hfull.imp_right le_roundHalfEven)
    (roundHalfEven_le hnonneg (by exact_mod_cast hless))

/-- A multiple of the unit in the last place is not moved. -/
theorem roundHalfEven_of_onGrid (hv : 0 < v) (h : OnGrid e v) :
    (roundHalfEven (v / 2 ^ e) : Rat) * 2 ^ e = v := by
  obtain ⟨n, rfl⟩ := h
  have hn : 0 ≤ n := by
    have hpos := pos_of_mul_pos_left hv (two_zpow_pos e).le
    exact (by exact_mod_cast hpos : 0 < n).le
  obtain ⟨m, rfl⟩ := Int.eq_ofNat_of_zero_le hn
  rw [mul_div_cancel_right₀ _ (two_zpow_pos e).ne', Int.cast_natCast, roundHalfEven_natCast]

theorem OnGrid.magnitude_nearestIndex (h : OnGrid e v) (hv : 0 ≤ v) :
    OnGrid e (magnitude (nearestIndex v)) := by
  rcases hv.eq_or_lt with rfl | hpos
  · exact ⟨0, by rw [Int.cast_zero, zero_mul]; exact magnitude_zero⟩
  obtain ⟨k, hmagnitude, _⟩ := Binary64.magnitude_nearestIndex hpos
  rcases le_total e ((k : Int) - 1074) with hcoarse | hfine
  · have hunit : OnGrid ((k : Int) - 1074) (magnitude (nearestIndex v)) := ⟨_, hmagnitude⟩
    exact hunit.finer hcoarse
  · rw [hmagnitude, roundHalfEven_of_onGrid hpos (h.finer hfine)]
    exact h

/-- Rounding does not leave a grid. -/
theorem OnGrid.rounded (h : OnGrid e v) : OnGrid e (rounded v) := by
  have habs := h.abs.magnitude_nearestIndex (abs_nonneg v)
  rcases lt_or_ge v 0 with hneg | hnonneg
  · rw [rounded_of_neg hneg]
    exact habs.neg
  · rwa [rounded_of_nonneg hnonneg]

theorem abs_sub_magnitude_le (hv : 0 < v) (hgrid : OnGrid (-1074) v) :
    |v - magnitude (nearestIndex v)| ≤ v * 2 ^ (-53 : Int) := by
  have hsmall : 0 ≤ v * 2 ^ (-53 : Int) := (mul_pos hv (two_zpow_pos _)).le
  obtain ⟨k, hmagnitude, rfl | hfull⟩ := magnitude_nearestIndex hv
  · rw [Nat.cast_zero, zero_sub, roundHalfEven_of_onGrid hv hgrid] at hmagnitude
    rwa [hmagnitude, sub_self, abs_zero]
  · have hunit := two_zpow_pos ((k : Int) - 1074)
    rw [hmagnitude]
    obtain ⟨q, rfl⟩ : ∃ q, v = q * 2 ^ ((k : Int) - 1074) :=
      ⟨v / 2 ^ ((k : Int) - 1074), (div_mul_cancel₀ v hunit.ne').symm⟩
    rw [mul_div_cancel_right₀ q hunit.ne'] at hfull ⊢
    obtain ⟨hdown, hup, _⟩ := roundHalfEven_spec (pos_of_mul_pos_left hv hunit.le).le
    have hhalf : |q - roundHalfEven q| ≤ 1 / 2 := abs_le.2 ⟨by linarith, by linarith⟩
    have hshare : (1 : Rat) / 2 = binade * 2 ^ (-53 : Int) := by norm_num [binade]
    rw [← sub_mul, abs_mul, abs_of_pos hunit, mul_right_comm]
    apply mul_le_mul_of_nonneg_right _ hunit.le
    calc |q - roundHalfEven q| ≤ binade * 2 ^ (-53 : Int) := hhalf.trans hshare.le
      _ ≤ q * 2 ^ (-53 : Int) := mul_le_mul_of_nonneg_right hfull (two_zpow_pos _).le

/-- Rounding is off by one part in `2 ^ 53` at most, and not at all among the least magnitudes. -/
theorem abs_rounded_sub_le_mul (hgrid : OnGrid (-1074) v) :
    |rounded v - v| ≤ |v| * 2 ^ (-53 : Int) := by
  rw [abs_rounded_sub]
  rcases (abs_nonneg v).eq_or_lt with hzero | hpos
  · rw [← hzero]
    simp [show nearestIndex 0 = 0 from rfl, magnitude_zero]
  · exact abs_sub_magnitude_le hpos hgrid.abs

/-- Rounding a number that is near to a representable one takes it no farther off than twice that. -/
theorem abs_rounded_sub_le_two_mul {d : Rat} (hu : Representable u) (h : |v - u| ≤ d) :
    |rounded v - u| ≤ 2 * d := by
  have hnearest := abs_rounded_sub_le (v := v) hu
  rw [abs_sub_comm u v] at hnearest
  calc |rounded v - u| ≤ |rounded v - v| + |v - u| := abs_sub_le _ _ _
    _ ≤ 2 * d := by linarith

end Abacus.Binary64
