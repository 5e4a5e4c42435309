import Abacus.Proofs.Binary64.Remainder

namespace Abacus.Binary64

variable {a b x : Binary64} {v w q : Rat} {n : Int}

theorem representable_floor (hv : Representable v) : Representable v.floor := by
  obtain ⟨e, he, hgrid, hdigits⟩ := hv.exists_onGrid
  rcases le_or_gt 0 e with hwhole | hfraction
  · obtain ⟨n, hn⟩ := hgrid.finer hwhole
    rw [zpow_zero, mul_one] at hn
    rwa [hn, Rat.floor_intCast, ← hn]
  · have hsmall : |v| < 2 ^ 52 := by
      calc |v| < 2 ^ (53 + e) := hdigits
        _ ≤ 2 ^ (52 : Int) := zpow_le_zpow_right₀ (by norm_num) (by omega)
        _ = 2 ^ 52 := by norm_num
    obtain ⟨hlow, hhigh⟩ := abs_lt.1 hsmall
    have hbelow : (v.floor : Rat) ≤ v := Int.floor_le v
    have habove : v < v.floor + 1 := Int.lt_floor_add_one v
    apply representable_intCast
    have hcast : |(v.floor : Rat)| ≤ 2 ^ 53 := abs_le.2 ⟨by linarith, by linarith⟩
    exact_mod_cast hcast

theorem value?_floor (hx : x.value? = some v) : x.floor.value? = some (v.floor : Rat) := by
  have hfloor := representable_floor ⟨x, hx⟩
  obtain ⟨s, i, rfl, rfl⟩ := exists_of_value? hx
  rw [floor, value?_round s hfloor le_rfl, rounded_of_representable hfloor]

theorem representable_pastHalf : Representable (1 / 2 + 1 / 2 ^ 51) := by
  have hgrid : OnGrid (-51) (1 / 2 + 1 / 2 ^ 51 : Rat) := ⟨2 ^ 50 + 1, by norm_num⟩
  exact hgrid.representable_of_le (by decide) (by decide) (by norm_num)

/-- An integer, or past the finite numbers. -/
def IntegralOrInfinite (x : Binary64) : Prop :=
  (∃ n : Int, x.value? = some (n : Rat)) ∨ ∃ s, x = infinity s

theorem IntegralOrInfinite.ne_nan (h : IntegralOrInfinite x) : x ≠ nan := by
  rintro rfl
  rcases h with ⟨n, hn⟩ | ⟨s, hs⟩
  · cases hn
  · cases hs

theorem integralOrInfinite_round (z : Bool) (n : Int) : IntegralOrInfinite (round z n) := by
  rcases round_cases z n with hvalue | hinfinite
  · obtain ⟨m, hm⟩ := (OnGrid.intCast n).rounded
    rw [zpow_zero, mul_one] at hm
    exact .inl ⟨m, by rw [hvalue, hm]⟩
  · exact .inr hinfinite

/-- The quotient with its fraction, one less where truncating went up. -/
def unfloored (a b : Binary64) : Binary64 :=
  let m := a % b
  let truncated := (a - m) / b
  if !m.isZero && b.isBelowZero != m.isBelowZero then truncated - one else truncated

/-- The integer below, or the one above where that is nearer by more than the other. -/
def settled (x : Binary64) : Binary64 :=
  if half.lt (x - x.floor) then x.floor + one else x.floor

theorem flooredQuotient_of_ne_zero (hb : b.isZero = false) :
    a.flooredQuotient b = .ok (if (unfloored a b).isZero then zero (a / b).isNegative
      else settled (unfloored a b)) := by
  unfold flooredQuotient
  rw [if_neg (by rw [hb]; decide)]
  exact (apply_ite Except.ok _ _ _).symm

theorem settled_integralOrInfinite (hx : x ≠ nan) : IntegralOrInfinite (settled x) := by
  cases hcase : x with
  | nan => exact absurd hcase hx
  | infinity s => exact .inr ⟨s, by cases s <;> rfl⟩
  | finite s i =>
    have hfloor := value?_floor (x := finite s i) rfl
    unfold settled
    split
    · obtain ⟨z, hround⟩ := exists_add hfloor value?_one
      rw [hround, ← Int.cast_one, ← Int.cast_add]
      exact integralOrInfinite_round z _
    · exact .inl ⟨_, hfloor⟩

/-- What is nearer than a half to an integer settles at it. -/
theorem value?_settled (hx : x.value? = some v) (hn : |n| ≤ 2 ^ 50)
    (hnear : |v - n| ≤ 1 / 2 - 1 / 2 ^ 51) : (settled x).value? = some (n : Rat) := by
  obtain ⟨hlow, hhigh⟩ := abs_le.1 hnear
  have hfloor := value?_floor hx
  obtain ⟨z, hfraction⟩ := exists_sub hx hfloor
  have hrange : |v - v.floor| ≤ |((1 : Int) : Rat)| := by
    have hbelow : (v.floor : Rat) ≤ v := Int.floor_le v
    have habove : v < v.floor + 1 := Int.lt_floor_add_one v
    rw [Int.cast_one, abs_one]
    exact abs_le.2 ⟨by linarith, by linarith⟩
  have hone : Representable ((1 : Int) : Rat) := representable_intCast (by norm_num)
  have hvalue := value?_round z hone hrange
  rw [← hfraction] at hvalue
  unfold settled
  rw [lt_eq value?_half hvalue]
  rcases le_or_gt (n : Rat) v with hright | hleft
  · have hinteger : v.floor = n := floor_eq hright (by linarith)
    have hhalf := rounded_le ⟨half, value?_half⟩ (show v - v.floor ≤ 1 / 2 by rw [hinteger]; linarith)
    rw [if_neg (by rw [decide_eq_true_iff]; exact hhalf.not_gt), hfloor, hinteger]
  · have hinteger : v.floor = n - 1 :=
      floor_eq (by push_cast; linarith) (by push_cast; linarith)
    have hpast := le_rounded representable_pastHalf
      (show 1 / 2 + 1 / 2 ^ 51 ≤ v - v.floor by rw [hinteger]; push_cast; linarith)
    have hmore : 1 / 2 < rounded (v - v.floor) := lt_of_lt_of_le (by norm_num) hpast
    rw [if_pos (decide_eq_true hmore)]
    rw [hinteger] at hfloor
    obtain ⟨y, hsum⟩ := exists_add hfloor value?_one
    have hn' : Representable (n : Rat) := representable_intCast (hn.trans (by norm_num))
    rw [hsum, show ((n - 1 : Int) : Rat) + 1 = n by push_cast; ring, value?_round y hn' le_rfl,
      rounded_of_representable hn']

/-- Rounding what is near to an integer takes it at most twice as far from it. -/
theorem exists_value?_round_near (z : Bool) {d : Rat} (hn : |n| ≤ 2 ^ 51) (hnear : |v - n| ≤ d)
    (hd : d ≤ 1) : ∃ y, (round z v).value? = some y ∧ |y - n| ≤ 2 * d := by
  have hrange : |v| ≤ |((2 ^ 52 : Int) : Rat)| := by
    have hcast : |(n : Rat)| ≤ 2 ^ 51 := by exact_mod_cast hn
    calc |v| ≤ |v - n| + |(n : Rat)| := by
          have htriangle := abs_add_le (v - n) n
          rwa [sub_add_cancel] at htriangle
      _ ≤ |((2 ^ 52 : Int) : Rat)| := by norm_num; linarith
  refine ⟨_, value?_round z (representable_intCast (by norm_num)) hrange, ?_⟩
  exact abs_rounded_sub_le_two_mul (representable_intCast (hn.trans (by norm_num))) hnear

/-- A rounded multiple of the divisor, divided again, is off by one part in `2 ^ 53` at most. -/
theorem abs_rounded_mul_div_sub_le (hw : Representable w) (hne : w ≠ 0) (k : Int) :
    |rounded (w * k) / w - k| ≤ |(k : Rat)| * 2 ^ (-53 : Int) := by
  have herror := abs_rounded_sub_le_mul (hw.onGrid.mul_int k)
  have hquotient : rounded (w * k) / w - k = (rounded (w * k) - w * k) / w := by
    rw [sub_div, mul_div_cancel_left₀ _ hne]
  rw [hquotient, abs_div, div_le_iff₀ (abs_pos.2 hne)]
  calc |rounded (w * k) - w * k| ≤ |w * k| * 2 ^ (-53 : Int) := herror
    _ = |(k : Rat)| * 2 ^ (-53 : Int) * |w| := by rw [abs_mul]; ring

theorem abs_truncate_lt (h : |q| < 2 ^ 50) : |truncate q| ≤ 2 ^ 50 - 1 := by
  have hcast : |(truncate q : Rat)| < (2 ^ 50 : Int) := by
    push_cast
    exact lt_of_le_of_lt (abs_truncate_le q) h
  exact Int.le_sub_one_of_lt (by exact_mod_cast hcast)

theorem abs_floor_le (h : |q| < 2 ^ 50) : |q.floor| ≤ 2 ^ 50 := by
  have hbound := abs_truncate_lt h
  rw [floor_eq_truncate]
  rw [abs_le] at hbound ⊢
  split <;> omega

section Finite

variable (ha : a.value? = some v) (hb : b.value? = some w) (hne : w ≠ 0)

include ha hb hne

/-- What is divided is a multiple of the divisor but for one rounding. -/
theorem value?_dividend :
    (a - a % b).value? = some (rounded (w * truncate (v / w))) := by
  obtain ⟨z, hround⟩ := exists_sub ha (value?_rem ha hb hne)
  rw [sub_sub_cancel] at hround
  rw [hround]
  apply value?_round z ⟨a, ha⟩
  rw [abs_mul]
  calc |w| * |(truncate (v / w) : Rat)|
      ≤ |w| * |v / w| := mul_le_mul_of_nonneg_left (abs_truncate_le _) (abs_nonneg w)
    _ = |v| := by rw [← abs_mul, mul_div_cancel₀ v hne]

theorem unfloored_ne_nan : unfloored a b ≠ nan := by
  obtain ⟨z, hround⟩ := exists_div (value?_dividend ha hb hne) hb hne
  unfold unfloored
  dsimp only
  rw [hround]
  split
  · rcases round_cases z (rounded (w * truncate (v / w)) / w) with hvalue | ⟨s, hinfinite⟩
    · exact ne_nan_of_exists_round (exists_sub hvalue value?_one)
    · rw [hinfinite]
      exact nofun
  · exact round_ne_nan _ _

theorem integralOrInfinite_of_flooredQuotient (h : a.flooredQuotient b = .ok x) :
    IntegralOrInfinite x := by
  have hnonzero : b.isZero = false := by rw [isZero_eq hb, decide_eq_false hne]
  rw [flooredQuotient_of_ne_zero hnonzero] at h
  cases h
  split
  · exact .inl ⟨0, by rw [value?_zero, Int.cast_zero]⟩
  · exact settled_integralOrInfinite (unfloored_ne_nan ha hb hne)

/-- Below `2 ^ 50` a quotient is off by less than a half after all roundings. -/
theorem exists_value?_unfloored (hsmall : |v / w| < 2 ^ 50) :
    ∃ y, (unfloored a b).value? = some y ∧ |y - (v / w).floor| ≤ 1 / 2 - 1 / 2 ^ 51 := by
  have hfloor := floor_eq_truncate (v / w)
  have hdiffers := rem_differs ha hb hne
  have hbound := abs_truncate_lt hsmall
  obtain ⟨z, hdiv⟩ := exists_div (value?_dividend ha hb hne) hb hne
  have hquotient := abs_rounded_mul_div_sub_le ⟨b, hb⟩ hne (truncate (v / w))
  generalize truncate (v / w) = k at *
  have hd : |(k : Rat)| * 2 ^ (-53 : Int) ≤ (2 ^ 50 - 1) / 2 ^ 53 := by
    have hcast : |(k : Rat)| ≤ 2 ^ 50 - 1 := by exact_mod_cast hbound
    calc |(k : Rat)| * 2 ^ (-53 : Int) ≤ (2 ^ 50 - 1) * 2 ^ (-53 : Int) :=
          mul_le_mul_of_nonneg_right hcast (two_zpow_pos _).le
      _ = (2 ^ 50 - 1) / 2 ^ 53 := by norm_num
  obtain ⟨y, hy, hnear⟩ := exists_value?_round_near z (hbound.trans (by norm_num))
    (hquotient.trans hd) (by norm_num)
  rw [← hdiv] at hy
  unfold unfloored
  dsimp only
  rw [hdiffers]
  by_cases hup : v / w < k
  · -- One less than the quotient is as near to one less than the integer, and is rounded once more.
    have hless : |y - 1 - (k - 1 : Int)| ≤ 2 * ((2 ^ 50 - 1) / 2 ^ 53) := by
      push_cast
      rwa [sub_sub_sub_cancel_right]
    obtain ⟨x, hsub⟩ := exists_sub hy value?_one
    obtain ⟨u, hu, hnear'⟩ := exists_value?_round_near x
      (by rw [abs_le] at hbound ⊢; omega) hless (by norm_num)
    rw [← hsub] at hu
    rw [if_pos hup] at hfloor
    rw [if_pos (decide_eq_true hup), hfloor]
    exact ⟨u, hu, hnear'.trans (by norm_num)⟩
  · rw [if_neg hup] at hfloor
    rw [if_neg (by rwa [decide_eq_true_iff]), hfloor]
    exact ⟨y, hy, hnear.trans (by norm_num)⟩

/-- The floored quotient is an integer or an infinity, and is the floor of the exact quotient while
that is less than `2 ^ 50`. -/
theorem flooredQuotient_floors :
    ∃ x, a.flooredQuotient b = .ok x ∧ IntegralOrInfinite x ∧
      (|v / w| < 2 ^ 50 → x.value? = some ((v / w).floor : Rat)) := by
  have hnonzero : b.isZero = false := by rw [isZero_eq hb, decide_eq_false hne]
  have hquotient := flooredQuotient_of_ne_zero (a := a) hnonzero
  refine ⟨_, hquotient, integralOrInfinite_of_flooredQuotient ha hb hne hquotient, ?_⟩
  intro hsmall
  obtain ⟨y, hy, hnear⟩ := exists_value?_unfloored ha hb hne hsmall
  rw [isZero_eq hy]
  split
  · rename_i hyzero
    rw [of_decide_eq_true hyzero, zero_sub, abs_neg] at hnear
    have hless : |((v / w).floor : Rat)| < (1 : Int) := lt_of_le_of_lt hnear (by norm_num)
    have hnone : (v / w).floor = 0 := Int.abs_lt_one_iff.1 (by exact_mod_cast hless)
    rw [hnone, value?_zero, Int.cast_zero]
  · exact value?_settled hy (abs_floor_le hsmall) hnear

end Finite

/-- In `-1.3 // 0.1` the rounded quotient falls below -13, and settles there again. -/
theorem flooredQuotient_floors_below :
    (finite true ⟨0x3ff4cccccccccccd, by decide⟩).value? = some (-5854679515581645 / 2 ^ 52) ∧
      (finite false ⟨0x3fb999999999999a, by decide⟩).value? = some (7205759403792794 / 2 ^ 56) ∧
      (7205759403792794 / 2 ^ 56 : Rat) ≠ 0 ∧
      |(-5854679515581645 / 2 ^ 52) / (7205759403792794 / 2 ^ 56 : Rat)| < 2 ^ 50 ∧
      ((-5854679515581645 / 2 ^ 52) / (7205759403792794 / 2 ^ 56 : Rat)).floor = -13 ∧
      ∃ x, (finite true ⟨0x3ff4cccccccccccd, by decide⟩).flooredQuotient
          (finite false ⟨0x3fb999999999999a, by decide⟩) = .ok x ∧
        IntegralOrInfinite x ∧ x.value? = some (-13 : Rat) := by
  have ha : (finite true ⟨0x3ff4cccccccccccd, by decide⟩).value? =
      some (-5854679515581645 / 2 ^ 52) := by decide +kernel
  have hb : (finite false ⟨0x3fb999999999999a, by decide⟩).value? =
      some (7205759403792794 / 2 ^ 56) := by decide +kernel
  have hne : (7205759403792794 / 2 ^ 56 : Rat) ≠ 0 := by norm_num
  have hsmall : |(-5854679515581645 / 2 ^ 52) / (7205759403792794 / 2 ^ 56 : Rat)| < 2 ^ 50 := by
    decide +kernel
  have hfloor : ((-5854679515581645 / 2 ^ 52) / (7205759403792794 / 2 ^ 56 : Rat)).floor = -13 := by
    decide +kernel
  obtain ⟨x, hx, hkind, hvalue⟩ := flooredQuotient_floors ha hb hne
  rw [hfloor] at hvalue
  exact ⟨ha, hb, hne, hsmall, hfloor, x, hx, hkind, hvalue hsmall⟩

end Abacus.Binary64
