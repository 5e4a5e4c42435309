import Abacus.Proofs.Binary64.Nearest

namespace Abacus.Binary64

variable {v w x : Rat}

/-- The multiples of a power of two. -/
def OnGrid (e : Int) (v : Rat) : Prop := ∃ n : Int, v = n * 2 ^ e

namespace OnGrid

variable {d e : Int}

theorem neg (h : OnGrid e v) : OnGrid e (-v) := by
  obtain ⟨n, rfl⟩ := h
  exact ⟨-n, by push_cast; ring⟩

theorem add (hv : OnGrid e v) (hw : OnGrid e w) : OnGrid e (v + w) := by
  obtain ⟨n, rfl⟩ := hv
  obtain ⟨m, rfl⟩ := hw
  exact ⟨n + m, by push_cast; ring⟩

theorem sub (hv : OnGrid e v) (hw : OnGrid e w) : OnGrid e (v - w) := by
  rw [sub_eq_add_neg]
  exact hv.add hw.neg

theorem mul_int (h : OnGrid e v) (k : Int) : OnGrid e (v * k) := by
  obtain ⟨n, rfl⟩ := h
  exact ⟨n * k, by push_cast; ring⟩

theorem abs (h : OnGrid e v) : OnGrid e |v| := by
  rcases abs_choice v with heq | heq
  · rwa [heq]
  · rw [heq]
    exact h.neg

/-- The grid of a lesser power holds all multiples of a greater one. -/
theorem finer (h : OnGrid e v) (hle : d ≤ e) : OnGrid d v := by
  obtain ⟨n, rfl⟩ := h
  obtain ⟨k, hk⟩ := Int.eq_ofNat_of_zero_le (Int.sub_nonneg_of_le hle)
  refine ⟨n * 2 ^ k, ?_⟩
  rw [show e = k + d by omega, two_zpow_add, zpow_natCast]
  push_cast
  ring

theorem intCast (n : Int) : OnGrid 0 n := ⟨n, by rw [zpow_zero, mul_one]⟩

/-- No multiple but zero is less than the unit. -/
theorem two_zpow_le (h : OnGrid e v) (hne : v ≠ 0) : 2 ^ e ≤ |v| := by
  obtain ⟨n, rfl⟩ := h
  have hn : n ≠ 0 := by
    rintro rfl
    exact hne (by rw [Int.cast_zero, zero_mul])
  have hone : (1 : Rat) ≤ |(n : Rat)| := by exact_mod_cast Int.one_le_abs hn
  rw [abs_mul, abs_of_pos (two_zpow_pos e)]
  exact le_mul_of_one_le_left (two_zpow_pos e).le hone

end OnGrid

theorem magnitude_nonneg (index : Nat) : 0 ≤ magnitude index :=
  mul_nonneg (Nat.cast_nonneg _) (two_zpow_pos _).le

theorem abs_signed (negative : Bool) (index : Nat) : |signed negative index| = magnitude index := by
  cases negative with
  | false => exact abs_of_nonneg (magnitude_nonneg index)
  | true => exact (abs_neg _).trans (abs_of_nonneg (magnitude_nonneg index))

theorem magnitude_eq_zero_iff {index : Nat} : magnitude index = 0 ↔ index = 0 := by
  constructor
  · intro h
    by_contra hne
    exact (magnitude_pos hne).ne' h
  · rintro rfl
    exact magnitude_zero

theorem magnitude_one : magnitude 1 = 2 ^ (-1074 : Int) := by
  rw [magnitude, unitExponent_of_subnormal (by decide), show significand 1 = 1 from rfl, Nat.cast_one,
    one_mul]

theorem magnitude_magnitudeCount : magnitude magnitudeCount = 2 ^ (1024 : Int) := magnitude_binade 2046

/-- The rationals that some finite number stands for. -/
def Representable (v : Rat) : Prop := ∃ x : Binary64, x.value? = some v

theorem exists_of_value? {x : Binary64} (h : x.value? = some v) :
    ∃ s i, x = finite s i ∧ signed s i = v := by
  cases x with
  | nan => cases h
  | infinity s => cases h
  | finite s i => exact ⟨s, i, rfl, Option.some.inj h⟩

theorem exists_value?_of_isFinite {x : Binary64} (h : x.isFinite) : ∃ v, x.value? = some v := by
  cases x with
  | nan => cases h
  | infinity s => cases h
  | finite s i => exact ⟨_, rfl⟩

theorem isFinite_of_value? {x : Binary64} (h : x.value? = some v) : x.isFinite := by
  obtain ⟨s, i, rfl, _⟩ := exists_of_value? h
  rfl

theorem representable_iff : Representable v ↔ ∃ index < magnitudeCount, magnitude index = |v| := by
  constructor
  · rintro ⟨x, hx⟩
    obtain ⟨s, i, rfl, rfl⟩ := exists_of_value? hx
    exact ⟨i, i.isLt, (abs_signed s i).symm⟩
  · rintro ⟨index, hindex, hmagnitude⟩
    rcases abs_choice v with habs | habs
    · exact ⟨finite false ⟨index, hindex⟩, congrArg some (hmagnitude.trans habs)⟩
    · refine ⟨finite true ⟨index, hindex⟩, congrArg some ?_⟩
      rw [show signed true index = -magnitude index from rfl, hmagnitude, habs, neg_neg]

theorem exists_magnitude {n : Nat} (k : Nat) (hn : n ≤ 2 * binade) :
    ∃ index, magnitude index = n * 2 ^ ((k : Int) - 1074) := by
  induction k generalizing n with
  | zero => exact ⟨_, magnitude_join (k := 0) (.inl rfl) hn⟩
  | succ k ih =>
    rcases Nat.lt_or_ge n binade with hsmall | hfull
    · -- With room for one digit more, the next lesser unit does as well.
      obtain ⟨index, hindex⟩ := ih (show 2 * n ≤ 2 * binade by omega)
      refine ⟨index, ?_⟩
      rw [hindex, show ((k + 1 : Nat) : Int) - 1074 = 1 + ((k : Int) - 1074) by omega, two_zpow_add]
      push_cast
      ring
    · exact ⟨_, magnitude_join (.inr hfull) hn⟩

/-- Multiples of a unit that have at most 53 digits in it are representable. -/
theorem OnGrid.representable {e : Int} (h : OnGrid e v) (he : -1074 ≤ e)
    (hdigits : |v| ≤ 2 ^ (53 + e)) (hrange : |v| < 2 ^ (1024 : Int)) : Representable v := by
  obtain ⟨n, rfl⟩ := h
  obtain ⟨k, hk⟩ := Int.eq_ofNat_of_zero_le (show 0 ≤ e + 1074 by omega)
  obtain rfl : e = (k : Int) - 1074 := by omega
  have habs : |(n : Rat) * 2 ^ ((k : Int) - 1074)| = n.natAbs * 2 ^ ((k : Int) - 1074) := by
    rw [abs_mul, abs_of_pos (two_zpow_pos _), Nat.cast_natAbs, Int.cast_abs]
  have hn : n.natAbs ≤ 2 * binade := by
    rw [habs, two_zpow_add] at hdigits
    have hcast := le_of_mul_le_mul_right hdigits (two_zpow_pos _)
    rw [show (2 : Rat) ^ (53 : Int) = (2 * binade : Nat) by norm_num [binade]] at hcast
    exact_mod_cast hcast
  obtain ⟨index, hindex⟩ := exists_magnitude k hn
  rw [← habs] at hindex
  refine representable_iff.2 ⟨index, ?_, hindex⟩
  rwa [← hindex, ← magnitude_magnitudeCount, magnitude_strictMono.lt_iff_lt] at hrange

/-- What is representable has less than 54 digits in some unit. -/
theorem Representable.exists_onGrid (h : Representable v) :
    ∃ e, -1074 ≤ e ∧ OnGrid e v ∧ |v| < 2 ^ (53 + e) := by
  obtain ⟨x, hx⟩ := h
  obtain ⟨s, i, rfl, rfl⟩ := exists_of_value? hx
  obtain ⟨k, r, hindex, hfull, hr⟩ := exists_join i
  have hmagnitude := magnitude_join hfull hr.le
  rw [← hindex] at hmagnitude
  refine ⟨(k : Int) - 1074, by omega, ?_, ?_⟩
  · cases s with
    | false => exact ⟨r, hmagnitude⟩
    | true =>
      refine ⟨-r, ?_⟩
      rw [show signed true i = -magnitude i from rfl, hmagnitude]
      push_cast
      ring
  · rw [abs_signed, hmagnitude, two_zpow_add]
    apply mul_lt_mul_of_pos_right _ (two_zpow_pos _)
    rw [show (2 : Rat) ^ (53 : Int) = (2 * binade : Nat) by norm_num [binade]]
    exact_mod_cast hr

theorem Representable.onGrid (h : Representable v) : OnGrid (-1074) v := by
  obtain ⟨e, he, hgrid, _⟩ := h.exists_onGrid
  exact hgrid.finer he

theorem Representable.abs_lt (h : Representable v) : |v| < 2 ^ (1024 : Int) := by
  obtain ⟨index, hindex, hmagnitude⟩ := representable_iff.1 h
  rw [← hmagnitude, ← magnitude_magnitudeCount]
  exact magnitude_strictMono hindex

/-- Small multiples are far from the end of the range. -/
theorem OnGrid.representable_of_le {e : Int} (h : OnGrid e v) (he : -1074 ≤ e) (hle : e ≤ 0)
    (hdigits : |v| ≤ 2 ^ (53 + e)) : Representable v := by
  apply h.representable he hdigits
  calc |v| ≤ 2 ^ (53 + e) := hdigits
    _ < 2 ^ (1024 : Int) := zpow_lt_zpow_right₀ (by norm_num) (by omega)

theorem representable_intCast {n : Int} (h : |n| ≤ 2 ^ 53) : Representable n := by
  apply (OnGrid.intCast n).representable_of_le (by decide) le_rfl
  have habs : |(n : Rat)| ≤ (2 ^ 53 : Nat) := by exact_mod_cast h
  exact le_trans habs (by norm_num)

end Abacus.Binary64
