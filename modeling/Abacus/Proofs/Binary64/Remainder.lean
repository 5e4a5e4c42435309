import Abacus.Expr.Operation
import Abacus.Proofs.Binary64.Operations

namespace Abacus.Binary64

variable {a b : Binary64} {v w q : Rat}

/-- Truncation goes towards zero, by less than one. -/
theorem truncate_spec (q : Rat) :
    (0 ≤ q ∧ 0 ≤ truncate q ∧ truncate q ≤ q ∧ q < truncate q + 1) ∨
      (q < 0 ∧ truncate q ≤ 0 ∧ q ≤ truncate q ∧ truncate q - 1 < q) := by
  rcases lt_or_ge q 0 with hneg | hnonneg
  · right
    rw [truncate, if_pos hneg]
    refine ⟨hneg, Rat.ceil_le_iff.2 hneg.le, Rat.le_ceil, ?_⟩
    have hless : (q.ceil : Rat) < q + 1 := Rat.ceil_lt
    linarith
  · left
    rw [truncate, if_neg hnonneg.not_gt]
    exact ⟨hnonneg, Rat.le_floor_iff.2 (by exact_mod_cast hnonneg), Int.floor_le q,
      Int.lt_floor_add_one q⟩

theorem abs_sub_truncate_lt (q : Rat) : |q - truncate q| < 1 := by
  rw [abs_lt]
  rcases truncate_spec q with ⟨_, _, hlow, hhigh⟩ | ⟨_, _, hlow, hhigh⟩
  · exact ⟨by linarith, by linarith⟩
  · exact ⟨by linarith, by linarith⟩

theorem abs_sub_truncate_le (q : Rat) : |q - truncate q| ≤ |q| := by
  rcases truncate_spec q with ⟨hnonneg, hsign, hlow, _⟩ | ⟨hneg, hsign, hlow, _⟩
  · have hcast : (0 : Rat) ≤ truncate q := by exact_mod_cast hsign
    rw [abs_of_nonneg hnonneg, abs_of_nonneg (by linarith)]
    linarith
  · have hcast : (truncate q : Rat) ≤ 0 := by exact_mod_cast hsign
    rw [abs_of_neg hneg, abs_of_nonpos (by linarith)]
    linarith

theorem abs_truncate_le (q : Rat) : |(truncate q : Rat)| ≤ |q| := by
  rcases truncate_spec q with ⟨hnonneg, hsign, hlow, _⟩ | ⟨hneg, hsign, hlow, _⟩
  · have hcast : (0 : Rat) ≤ truncate q := by exact_mod_cast hsign
    rwa [abs_of_nonneg hnonneg, abs_of_nonneg hcast]
  · have hcast : (truncate q : Rat) ≤ 0 := by exact_mod_cast hsign
    rw [abs_of_neg hneg, abs_of_nonpos hcast]
    linarith

theorem floor_eq {n : Int} (hlow : n ≤ q) (hhigh : q < n + 1) : q.floor = n :=
  Int.floor_eq_iff.2 ⟨hlow, hhigh⟩

/-- The floor is one less than the truncation where truncating went up. -/
theorem floor_eq_truncate (q : Rat) :
    q.floor = if q < truncate q then truncate q - 1 else truncate q := by
  split
  · rename_i hless
    apply floor_eq
    · push_cast
      rcases truncate_spec q with ⟨_, _, hlow, _⟩ | ⟨_, _, _, hhigh⟩ <;> linarith
    · push_cast
      linarith
  · rename_i hge
    rw [not_lt] at hge
    apply floor_eq hge
    rcases truncate_spec q with ⟨_, _, _, hhigh⟩ | ⟨_, _, _, hhigh⟩ <;> linarith

theorem sub_mul_div (hne : w ≠ 0) (k : Rat) : v - w * k = w * (v / w - k) := by
  rw [mul_sub, mul_div_cancel₀ v hne]

/-- The remainder of truncated division has no more digits than its operands. -/
theorem representable_remainder (hv : Representable v) (hw : Representable w) (hne : w ≠ 0) :
    Representable (v - w * truncate (v / w)) := by
  have hdividend : |v - w * truncate (v / w)| ≤ |v| := by
    rw [sub_mul_div hne, abs_mul]
    calc |w| * |v / w - truncate (v / w)|
        ≤ |w| * |v / w| := mul_le_mul_of_nonneg_left (abs_sub_truncate_le _) (abs_nonneg w)
      _ = |v| := by rw [← abs_mul, mul_div_cancel₀ v hne]
  have hdivisor : |v - w * truncate (v / w)| ≤ |w| := by
    rw [sub_mul_div hne, abs_mul]
    exact mul_le_of_le_one_right (abs_nonneg w) (abs_sub_truncate_lt _).le
  have hrange := lt_of_le_of_lt hdividend hv.abs_lt
  obtain ⟨d, hd, hvgrid, hvdigits⟩ := hv.exists_onGrid
  obtain ⟨e, he, hwgrid, hwdigits⟩ := hw.exists_onGrid
  rcases le_total d e with hle | hle
  · have hgrid := hvgrid.sub ((hwgrid.mul_int (truncate (v / w))).finer hle)
    exact hgrid.representable hd (hdividend.trans hvdigits.le) hrange
  · have hgrid := (hvgrid.finer hle).sub (hwgrid.mul_int (truncate (v / w)))
    exact hgrid.representable he (hdivisor.trans hwdigits.le) hrange

/-- A product has the other sign than its first factor where the second one is negative. -/
theorem sign_mul_differs (hne : w ≠ 0) (f : Rat) :
    (!decide (w * f = 0) && decide (w < 0) != decide (w * f < 0)) = decide (f < 0) := by
  have hzero : w * f = 0 ↔ f = 0 := by rw [mul_eq_zero, or_iff_right hne]
  rcases lt_or_gt_of_ne hne with hw | hw
  · have hproduct : w * f < 0 ↔ 0 < f := by simp [mul_neg_iff, hw, hw.not_gt]
    rcases lt_trichotomy f 0 with hf | rfl | hf
    · simp [hzero, hproduct, hw, hf, hf.ne, hf.not_gt]
    · simp
    · simp [hzero, hproduct, hw, hf, hf.not_gt]
  · have hproduct : w * f < 0 ↔ f < 0 := by simp [mul_neg_iff, hw, hw.not_gt]
    by_cases hf : f < 0
    · simp [hzero, hproduct, hw.not_gt, hf, hf.ne]
    · simp [hproduct, hw.not_gt, hf]

/-- Only a rational zero takes its sign from elsewhere. -/
theorem round_of_ne_zero (h : v ≠ 0) (y z : Bool) : round y v = round z v := by
  rw [round_eq_ofMagnitude, round_eq_ofMagnitude, if_neg h, if_neg h]

theorem abs_sub_mul_floor_le (hne : w ≠ 0) : |v - w * (v / w).floor| ≤ |w| := by
  rw [sub_mul_div hne, abs_mul]
  apply mul_le_of_le_one_right (abs_nonneg w)
  have hlow : ((v / w).floor : Rat) ≤ v / w := Int.floor_le _
  have hhigh : v / w < (v / w).floor + 1 := Int.lt_floor_add_one _
  exact abs_le.2 ⟨by linarith, by linarith⟩

theorem sub_mul_floor_eq_zero_iff (hne : w ≠ 0) :
    v - w * (v / w).floor = 0 ↔ ∃ k : Int, v = w * k := by
  constructor
  · intro hzero
    exact ⟨_, sub_eq_zero.1 hzero⟩
  · rintro ⟨k, rfl⟩
    rw [mul_div_cancel_left₀ _ hne, Rat.floor_intCast, sub_self]

/-- What is left over has the sign of the divisor. -/
theorem sub_mul_floor_neg_iff (hne : w ≠ 0) (hover : v - w * (v / w).floor ≠ 0) :
    v - w * (v / w).floor < 0 ↔ w < 0 := by
  rw [sub_mul_div hne] at hover ⊢
  have hlow : ((v / w).floor : Rat) ≤ v / w := Int.floor_le _
  have hpos : 0 < v / w - (v / w).floor :=
    lt_of_le_of_ne (sub_nonneg.2 hlow) (right_ne_zero_of_mul hover).symm
  simp [mul_neg_iff, hpos, hpos.not_gt]

section Finite

variable (ha : a.value? = some v) (hb : b.value? = some w) (hne : w ≠ 0)

include ha hb hne

theorem value?_rem : (a % b).value? = some (v - w * truncate (v / w)) := by
  have hexact := representable_remainder ⟨a, ha⟩ ⟨b, hb⟩ hne
  obtain ⟨z, hround⟩ := exists_rem ha hb hne
  rw [hround, value?_round z hexact le_rfl, rounded_of_representable hexact]

/-- The signs of divisor and remainder differ where truncating went up. -/
theorem rem_differs :
    (!(a % b).isZero && b.isBelowZero != (a % b).isBelowZero) =
      decide (v / w < truncate (v / w)) := by
  have hrem := value?_rem ha hb hne
  rw [isZero_eq hrem, isBelowZero_eq hrem, isBelowZero_eq hb, sub_mul_div hne]
  rw [sign_mul_differs hne, decide_eq_decide]
  exact sub_neg

/-- The floored remainder is the exact one, rounded once. A zero has the sign of the divisor. -/
theorem flooredRemainder_eq :
    a.flooredRemainder b = .ok (round b.isNegative (v - w * (v / w).floor)) := by
  have hrem := value?_rem ha hb hne
  have hdiffers := rem_differs ha hb hne
  have hfloor := floor_eq_truncate (v / w)
  unfold flooredRemainder
  rw [if_neg (by rw [isZero_eq hb, decide_eq_false hne]; decide)]
  dsimp only
  cases hzero : (a % b).isZero with
  | true =>
    rw [hzero, Bool.not_true, Bool.false_and] at hdiffers
    rw [if_neg (of_decide_eq_false hdiffers.symm)] at hfloor
    rw [isZero_eq hrem, decide_eq_true_iff] at hzero
    rw [if_pos rfl, hfloor, hzero]
    rfl
  | false =>
    rw [hzero, Bool.not_false, Bool.true_and] at hdiffers
    rw [if_neg (by decide), hdiffers]
    by_cases hup : v / w < truncate (v / w)
    · -- The exact remainder is the truncated one and the divisor together, and no zero.
      rw [if_pos hup] at hfloor
      have hsum : v - w * ((v / w).floor : Rat) = v - w * truncate (v / w) + w := by
        rw [hfloor]
        push_cast
        ring
      have hsumne : v - w * truncate (v / w) + w ≠ 0 := by
        rw [← hsum, sub_mul_div hne]
        refine mul_ne_zero hne (sub_ne_zero.2 (ne_of_gt ?_))
        rw [hfloor]
        push_cast
        rcases truncate_spec (v / w) with ⟨_, _, hlow, _⟩ | ⟨_, _, _, hhigh⟩ <;> linarith
      obtain ⟨z, hround⟩ := exists_add hrem hb
      rw [if_pos (decide_eq_true hup), hround, hsum, round_of_ne_zero hsumne]
    · rw [if_neg hup] at hfloor
      obtain ⟨z, hround⟩ := exists_rem ha hb hne
      rw [isZero_eq hrem, decide_eq_false_iff_not] at hzero
      rw [if_neg (by rwa [decide_eq_true_iff]), hround, hfloor, round_of_ne_zero hzero]

/-- The floored remainder is nearest to the exact one. It has the sign of the divisor, zeros too, is
zero just where the division is exact, and is no greater than the divisor. -/
theorem flooredRemainder_rounds :
    ∃ r u, a.flooredRemainder b = .ok r ∧ r.value? = some u ∧
      RoundsTo (v - w * (v / w).floor) r ∧ r.isNegative = b.isNegative ∧
      (u = 0 ↔ ∃ k : Int, v = w * k) ∧ |u| ≤ |w| := by
  have hbound := abs_sub_mul_floor_le (v := v) hne
  have hgrid := (Representable.onGrid ⟨a, ha⟩).sub
    ((Representable.onGrid ⟨b, hb⟩).mul_int (v / w).floor)
  refine ⟨_, _, flooredRemainder_eq ha hb hne, value?_round _ ⟨b, hb⟩ hbound,
    round_roundsTo _ _, ?_, ?_, abs_rounded_le ⟨b, hb⟩ hbound⟩
  · rw [isNegative_round]
    split
    · rfl
    · rename_i hover
      rw [decide_eq_decide.2 (sub_mul_floor_neg_iff hne hover)]
      exact (isNegative_eq hb hne).symm
  · rw [rounded_eq_zero_iff hgrid]
    exact sub_mul_floor_eq_zero_iff hne

end Finite

/-- Just below zero the divisor is the nearest number to what is left over. -/
theorem flooredRemainder_rounds_to_divisor :
    (finite true ⟨1, by decide⟩).value? = some (-(2 ^ (-1074 : Int))) ∧ one.value? = some 1 ∧
      (1 : Rat) ≠ 0 ∧ (finite true ⟨1, by decide⟩).flooredRemainder one = .ok one ∧
      ∃ r u, (finite true ⟨1, by decide⟩).flooredRemainder one = .ok r ∧ r.value? = some u ∧
        RoundsTo (-(2 ^ (-1074 : Int)) - 1 * ((-(2 ^ (-1074 : Int)) : Rat) / 1).floor) r ∧
        r.isNegative = one.isNegative ∧
        (u = 0 ↔ ∃ k : Int, -(2 ^ (-1074 : Int)) = (1 : Rat) * k) ∧ |u| ≤ |1| := by
  have ha : (finite true ⟨1, by decide⟩).value? = some (-(2 ^ (-1074 : Int))) := by decide +kernel
  exact ⟨ha, value?_one, one_ne_zero, by decide +kernel,
    flooredRemainder_rounds ha value?_one one_ne_zero⟩

end Abacus.Binary64
