import Mathlib.Order.Monotone.Basic
import Abacus.Proofs.Binary64.Rounding

namespace Abacus.Binary64

/-- No other magnitude is as near, unless the index is even and the other one's distance the same. -/
def Nearest (v : Rat) (index : Nat) : Prop :=
  ∀ other, other ≠ index →
    |v - magnitude index| < |v - magnitude other| ∨
      |v - magnitude index| = |v - magnitude other| ∧ index % 2 = 0

variable {v w : Rat}

theorem binade_eq_two_zpow : (binade : Rat) = 2 ^ (52 : Int) := by norm_num [binade]

/-- The magnitudes from an index on that starts a binade, up to the start of the next. -/
theorem magnitude_join {k r : Nat} (hr : k = 0 ∨ binade ≤ r) (hle : r ≤ 2 * binade) :
    magnitude (k * binade + r) = r * 2 ^ ((k : Int) - 1074) := by
  have hpos : 0 < binade := by decide
  rcases Nat.lt_or_ge r binade with hsmall | hgreat
  · obtain rfl : k = 0 := hr.resolve_right (Nat.not_le_of_lt hsmall)
    have hsignificand : significand r = r := if_pos hsmall
    rw [Nat.zero_mul, Nat.zero_add, magnitude, hsignificand, unitExponent_of_subnormal hsmall]
    rfl
  obtain ⟨m, rfl⟩ := Nat.exists_eq_add_of_le hgreat
  have hindex : k * binade + (binade + m) = m + (k + 1) * binade := by ring
  have hlarge : ¬m + (k + 1) * binade < binade := by
    have hproduct := Nat.mul_le_mul_right binade (Nat.le_add_left 1 k)
    omega
  rw [hindex, magnitude, significand, if_neg hlarge, unitExponent]
  rcases Nat.lt_or_ge m binade with hm | hm
  · rw [Nat.add_mul_mod_self_right, Nat.mod_eq_of_lt hm, Nat.add_mul_div_right m _ hpos,
      Nat.div_eq_of_lt hm]
    congr 2
    omega
  · obtain rfl : m = binade := by omega
    rw [Nat.add_mul_mod_self_right, Nat.mod_self, Nat.add_mul_div_right binade _ hpos,
      Nat.div_self hpos]
    have hexponent : ((max (1 + (k + 1)) 1 : Nat) : Int) - 1075 = 1 + ((k : Int) - 1074) := by
      omega
    rw [hexponent, two_zpow_add]
    push_cast
    ring

/-- Every binade starts with a power of two. -/
theorem magnitude_binade (k : Nat) : magnitude ((k + 1) * binade) = 2 ^ ((k : Int) - 1022) := by
  have hjoin := magnitude_join (k := k) (r := binade) (.inr le_rfl) (by decide)
  rw [← Nat.succ_mul, binade_eq_two_zpow, ← two_zpow_add] at hjoin
  rw [hjoin]
  congr 1
  ring

theorem exists_join (index : Nat) :
    ∃ k r, index = k * binade + r ∧ (k = 0 ∨ binade ≤ r) ∧ r < 2 * binade := by
  have hmod := Nat.mod_lt index (by decide : 0 < binade)
  have hdiv := Nat.div_add_mod' index binade
  rcases Nat.lt_or_ge index binade with hsmall | hgreat
  · exact ⟨0, index, by omega, .inl rfl, by omega⟩
  · have hquotient : 1 ≤ index / binade := (Nat.one_le_div_iff (by decide)).2 hgreat
    have hsplit : (index / binade - 1) * binade + binade = index / binade * binade := by
      rw [← Nat.succ_mul, Nat.succ_eq_add_one, Nat.sub_add_cancel hquotient]
    exact ⟨index / binade - 1, binade + index % binade, by omega, .inr (by omega), by omega⟩

theorem magnitude_lt_succ (index : Nat) : magnitude index < magnitude (index + 1) := by
  obtain ⟨k, r, rfl, hr, hlt⟩ := exists_join index
  rw [Nat.add_assoc, magnitude_join hr hlt.le,
    magnitude_join (hr.imp_right Nat.le_succ_of_le) hlt]
  apply mul_lt_mul_of_pos_right _ (two_zpow_pos _)
  exact_mod_cast Nat.lt_succ_self r

theorem magnitude_strictMono : StrictMono magnitude := strictMono_nat_of_lt_succ magnitude_lt_succ

/-- A number is rounded by at most a half, and by a half only to an even number. -/
theorem roundHalfEven_spec (hv : 0 ≤ v) :
    (roundHalfEven v : Rat) - 1 / 2 ≤ v ∧ v ≤ roundHalfEven v + 1 / 2 ∧
      (v = roundHalfEven v - 1 / 2 ∨ v = roundHalfEven v + 1 / 2 → roundHalfEven v % 2 = 0) := by
  have hfloor : ((v.floor.toNat : Nat) : Rat) = (v.floor : Rat) := by
    have hnonneg : 0 ≤ v.floor := Rat.le_floor_iff.2 (by exact_mod_cast hv)
    exact_mod_cast congrArg (Int.cast (R := Rat)) (Int.toNat_of_nonneg hnonneg)
  have hlow : ((v.floor.toNat : Nat) : Rat) ≤ v := by
    rw [hfloor]
    exact Int.floor_le v
  have hhigh : v < ((v.floor.toNat : Nat) : Rat) + 1 := by
    rw [hfloor]
    exact Int.lt_floor_add_one v
  unfold roundHalfEven
  dsimp only
  generalize v.floor.toNat = below at *
  split
  · rename_i hexcess
    refine ⟨by linarith, ?_, ?_⟩
    · rcases hexcess with hless | ⟨hhalf, _⟩ <;> linarith
    · rintro (hdown | hup)
      · linarith
      · rcases hexcess with hless | ⟨_, heven⟩
        · linarith
        · exact heven
  · rename_i hexcess
    rw [not_or, not_and] at hexcess
    obtain ⟨hless, hodd⟩ := hexcess
    push_cast
    refine ⟨by linarith, by linarith, ?_⟩
    rintro (hdown | hup)
    · have := hodd (by linarith)
      omega
    · linarith

theorem roundHalfEven_le {n : Nat} (hv : 0 ≤ v) (h : v < n) : roundHalfEven v ≤ n := by
  obtain ⟨hdown, _, _⟩ := roundHalfEven_spec hv
  have hcast : (roundHalfEven v : Rat) < (n + 1 : Nat) := by
    push_cast
    linarith
  exact Nat.le_of_lt_succ (by exact_mod_cast hcast)

/-- The nearest index of a positive number, and the number in units of the last place there. -/
theorem nearestIndex_join (hv : 0 < v) :
    ∃ k : Nat, nearestIndex v = k * binade + roundHalfEven (v / 2 ^ ((k : Int) - 1074)) ∧
      (k = 0 ∨ (binade : Rat) ≤ v / 2 ^ ((k : Int) - 1074)) ∧
      v / 2 ^ ((k : Int) - 1074) < 2 * binade := by
  obtain ⟨hlow, hhigh⟩ := binaryExponent_spec hv
  obtain ⟨k, hk⟩ := Int.eq_ofNat_of_zero_le
    (show 0 ≤ max (binaryExponent v - 52) (-1074) + 1074 by omega)
  have hunit : max (binaryExponent v - 52) (-1074) = (k : Int) - 1074 := by omega
  refine ⟨k, ?_, ?_, ?_⟩
  · rw [nearestIndex_of_pos hv hunit, sub_add_cancel, Int.toNat_natCast]
  · rcases Nat.eq_zero_or_pos k with hzero | hpos
    · exact .inl hzero
    · have hexponent : binaryExponent v = 52 + ((k : Int) - 1074) := by omega
      rw [hexponent, two_zpow_add, ← binade_eq_two_zpow] at hlow
      exact .inr ((le_div_iff₀ (two_zpow_pos _)).2 hlow)
  · rw [div_lt_iff₀ (two_zpow_pos _), binade_eq_two_zpow]
    calc v < 2 ^ (binaryExponent v + 1) := hhigh
      _ ≤ 2 ^ (1 + 52 + ((k : Int) - 1074)) := zpow_le_zpow_right₀ (by norm_num) (by omega)
      _ = 2 * 2 ^ (52 : Int) * 2 ^ ((k : Int) - 1074) := by
        rw [two_zpow_add, two_zpow_add, zpow_one]

theorem nearer_of_lt {a b : Rat} (hab : a < b) (h : 2 * v ≤ a + b) :
    |v - a| < |v - b| ∨ |v - a| = |v - b| ∧ 2 * v = a + b := by
  have hfar : |v - b| = b - v := by
    rw [abs_sub_comm]
    exact abs_of_pos (by linarith)
  rw [hfar]
  rcases le_or_gt v a with hbelow | habove
  · rw [abs_sub_comm, abs_of_nonneg (by linarith)]
    exact .inl (by linarith)
  · rw [abs_of_pos (by linarith)]
    rcases h.lt_or_eq with hlt | heq
    · exact .inl (by linarith)
    · exact .inr ⟨by linarith, heq⟩

theorem nearer_of_gt {a b : Rat} (hab : b < a) (h : a + b ≤ 2 * v) :
    |v - a| < |v - b| ∨ |v - a| = |v - b| ∧ 2 * v = a + b := by
  have hmirror := nearer_of_lt (v := -v) (neg_lt_neg hab) (by linarith)
  have habs (c : Rat) : |-v - -c| = |v - c| := by rw [neg_sub_neg, abs_sub_comm]
  rw [habs, habs] at hmirror
  exact hmirror.imp_right fun ⟨heq, hmiddle⟩ => ⟨heq, by linarith⟩

/-- Binades are even, so the last bit of an index is that of the significand. -/
theorem index_mod_two (k r : Nat) : (k * binade + r) % 2 = r % 2 := by
  have heven : binade = 2 * 2251799813685248 := rfl
  rw [heven, Nat.mul_left_comm, Nat.mul_add_mod]

/-- The number lies between the points halfway to the neighbours of a magnitude, and on such a
point only if the index is even. -/
structure Midway (v : Rat) (index : Nat) : Prop where
  above : 2 * v ≤ magnitude index + magnitude (index + 1)
  even_above : 2 * v = magnitude index + magnitude (index + 1) → index % 2 = 0
  below : ∀ j, j + 1 = index → magnitude index + magnitude j ≤ 2 * v
  even_below : ∀ j, j + 1 = index → 2 * v = magnitude index + magnitude j → index % 2 = 0

theorem Midway.nearest {index : Nat} (h : Midway v index) : Nearest v index := by
  intro other hother
  rcases Nat.lt_or_gt_of_ne hother with hless | hgreater
  · obtain ⟨j, rfl⟩ := Nat.exists_eq_add_of_lt hless
    have hbelow := h.below (other + j) rfl
    have hmono := magnitude_strictMono.monotone (Nat.le_add_right other j)
    apply (nearer_of_gt (magnitude_strictMono hless) (by linarith)).imp_right
    rintro ⟨hdistance, hmiddle⟩
    exact ⟨hdistance, h.even_below _ rfl (by linarith)⟩
  · have hmono := magnitude_strictMono.monotone (Nat.succ_le_of_lt hgreater)
    have habove := h.above
    apply (nearer_of_lt (magnitude_strictMono hgreater) (by linarith)).imp_right
    rintro ⟨hdistance, hmiddle⟩
    exact ⟨hdistance, h.even_above (by linarith)⟩

theorem midway_zero : Midway 0 0 where
  above := by
    have hpos := magnitude_pos (Nat.succ_ne_zero 0)
    have hzero := magnitude_zero
    linarith
  even_above := fun _ => rfl
  below := nofun
  even_below := nofun

section Join

variable {k r : Nat} {q : Rat}

/-- The middle above, in units of the last place: at the end of a binade it lies farther off. -/
theorem midway_above (hr : k = 0 ∨ binade ≤ r) (hle : r ≤ 2 * binade) (hless : q < 2 * binade)
    (hup : q ≤ r + 1 / 2) (heven : q = r + 1 / 2 → r % 2 = 0) :
    2 * (q * 2 ^ ((k : Int) - 1074)) ≤ magnitude (k * binade + r) + magnitude (k * binade + r + 1) ∧
      (2 * (q * 2 ^ ((k : Int) - 1074)) =
          magnitude (k * binade + r) + magnitude (k * binade + r + 1) →
        (k * binade + r) % 2 = 0) := by
  have hunit := two_zpow_pos ((k : Int) - 1074)
  rw [index_mod_two, magnitude_join hr hle]
  rcases hle.lt_or_eq with hinner | rfl
  · rw [Nat.add_assoc, magnitude_join (hr.imp_right Nat.le_succ_of_le) hinner]
    push_cast
    refine ⟨by nlinarith, fun hmiddle => heven ?_⟩
    apply mul_right_cancel₀ hunit.ne'
    linarith
  · have hsucc := magnitude_lt_succ (k * binade + 2 * binade)
    rw [magnitude_join hr le_rfl] at hsucc
    push_cast at hsucc ⊢
    exact ⟨by nlinarith, fun _ => rfl⟩

/-- The middle below: at the start of a binade the number is no less than its magnitude. -/
theorem midway_below (hr : k = 0 ∨ binade ≤ r) (hle : r ≤ 2 * binade)
    (hfull : k = 0 ∨ (binade : Rat) ≤ q) (hdown : r - 1 / 2 ≤ q) (heven : q = r - 1 / 2 → r % 2 = 0)
    {j : Nat} (hj : j + 1 = k * binade + r) :
    magnitude (k * binade + r) + magnitude j ≤ 2 * (q * 2 ^ ((k : Int) - 1074)) ∧
      (2 * (q * 2 ^ ((k : Int) - 1074)) = magnitude (k * binade + r) + magnitude j →
        (k * binade + r) % 2 = 0) := by
  have hunit := two_zpow_pos ((k : Int) - 1074)
  rw [index_mod_two, magnitude_join hr hle]
  by_cases hinner : k = 0 ∨ binade < r
  · obtain ⟨s, rfl⟩ : ∃ s, r = s + 1 := Nat.exists_eq_succ_of_ne_zero (by
      rintro rfl
      rcases hinner with rfl | hinner <;> omega)
    obtain rfl : j = k * binade + s := by omega
    rw [magnitude_join (hinner.imp_right Nat.le_of_lt_succ) (by omega)]
    push_cast at hdown heven ⊢
    refine ⟨by nlinarith, fun hmiddle => heven ?_⟩
    apply mul_right_cancel₀ hunit.ne'
    linarith
  · rw [not_or, not_lt] at hinner
    obtain rfl : r = binade := le_antisymm hinner.2 (hr.resolve_left hinner.1)
    have hstart := hfull.resolve_left hinner.1
    have hless := magnitude_lt_succ j
    rw [hj, magnitude_join hr hle] at hless
    exact ⟨by nlinarith, fun _ => rfl⟩

end Join

theorem midway_nearestIndex (hv : 0 ≤ v) : Midway v (nearestIndex v) := by
  rcases hv.eq_or_lt with rfl | hpos
  · exact midway_zero
  obtain ⟨k, hindex, hfull, hless⟩ := nearestIndex_join hpos
  have hunit := two_zpow_pos ((k : Int) - 1074)
  obtain ⟨q, rfl⟩ : ∃ q, v = q * 2 ^ ((k : Int) - 1074) :=
    ⟨v / 2 ^ ((k : Int) - 1074), (div_mul_cancel₀ v hunit.ne').symm⟩
  rw [mul_div_cancel_right₀ q hunit.ne'] at hindex hfull hless
  obtain ⟨hdown, hup, heven⟩ := roundHalfEven_spec (pos_of_mul_pos_left hpos hunit.le).le
  have hr : k = 0 ∨ binade ≤ roundHalfEven q := hfull.imp_right le_roundHalfEven
  have hle : roundHalfEven q ≤ 2 * binade :=
    roundHalfEven_le (pos_of_mul_pos_left hpos hunit.le).le (by exact_mod_cast hless)
  have habove := midway_above hr hle hless hup fun hmiddle => heven (.inr hmiddle)
  have hbelow (j : Nat) := midway_below (j := j) hr hle hfull hdown fun hmiddle => heven (.inl hmiddle)
  rw [hindex]
  exact ⟨habove.1, habove.2, fun j hj => (hbelow j hj).1, fun j hj => (hbelow j hj).2⟩

/-- Rounding picks the nearest magnitude. -/
theorem nearest_nearestIndex (hv : 0 ≤ v) : Nearest v (nearestIndex v) :=
  (midway_nearestIndex hv).nearest

theorem Nearest.not_lt {i j : Nat} (hi : Nearest v i) (hj : Nearest v j) : ¬i < j := by
  intro hless
  have hmono := magnitude_strictMono hless
  rcases hi j hless.ne' with hnearer | ⟨hequal, hieven⟩
  · rcases hj i hless.ne with hnearer' | ⟨hequal, _⟩ <;> linarith
  rcases hj i hless.ne with hnearer | ⟨_, hjeven⟩
  · linarith
  -- Both indices are even, and the magnitude between them is nearer.
  have hnext := magnitude_strictMono (Nat.lt_succ_self i)
  have hbetween : magnitude (i + 1) < magnitude j := magnitude_strictMono (by omega)
  have hmiddle : 2 * v = magnitude i + magnitude j := by
    rcases abs_eq_abs.1 hequal with hsame | hopposite <;> linarith
  have hless' : |v - magnitude (i + 1)| < |v - magnitude i| := by
    rw [abs_of_pos (show 0 < v - magnitude i by linarith), abs_lt]
    constructor <;> linarith
  rcases hi (i + 1) (Nat.succ_ne_self i) with hnearer | ⟨hequal', _⟩ <;> linarith

/-- There is one nearest magnitude. -/
theorem Nearest.unique {i j : Nat} (hi : Nearest v i) (hj : Nearest v j) : i = j :=
  Nat.le_antisymm (Nat.le_of_not_lt (hj.not_lt hi)) (Nat.le_of_not_lt (hi.not_lt hj))

theorem nearestIndex_mono (hv : 0 ≤ v) (hle : v ≤ w) : nearestIndex v ≤ nearestIndex w := by
  by_contra hgreater
  obtain ⟨j, hj⟩ := Nat.exists_eq_add_of_lt (not_le.1 hgreater)
  have hbelow := (midway_nearestIndex hv).below (nearestIndex w + j) hj.symm
  have habove := (midway_nearestIndex (hv.trans hle)).above
  have hlow := magnitude_strictMono.monotone (Nat.le_add_right (nearestIndex w) j)
  have hhigh := magnitude_strictMono.monotone (show nearestIndex w + 1 ≤ nearestIndex v by omega)
  obtain rfl : v = w := by linarith
  exact hgreater le_rfl

/-- A number that is no greater than its nearest magnitude bounds the magnitudes from there on. -/
theorem le_magnitude_iff (hv : 0 ≤ v) (h : v ≤ magnitude (nearestIndex v)) {index : Nat} :
    v ≤ magnitude index ↔ nearestIndex v ≤ index := by
  constructor
  · intro hle
    have hindex := nearestIndex_mono hv hle
    rwa [nearestIndex_magnitude] at hindex
  · intro hindex
    exact le_trans h (magnitude_strictMono.monotone hindex)

/-- The least number that is rounded to an infinity: it lies halfway between the greatest finite
magnitude, whose index is odd, and `2 ^ 1024`. -/
def leastInfinite : Nat := 2 ^ 1024 - 2 ^ 970

theorem two_mul_leastInfinite :
    (2 * leastInfinite : Rat) = magnitude (magnitudeCount - 1) + magnitude magnitudeCount := by
  decide +kernel

theorem magnitudeCount_le_nearestIndex_iff (hv : 0 ≤ v) :
    magnitudeCount ≤ nearestIndex v ↔ leastInfinite ≤ v := by
  have hlimit := two_mul_leastInfinite
  have hmidway := midway_nearestIndex hv
  constructor
  · intro hle
    obtain ⟨j, hj⟩ := Nat.exists_eq_add_of_le' (show 1 ≤ nearestIndex v by
      exact le_trans (by decide) hle)
    have hbelow := hmidway.below j hj.symm
    have hhigh := magnitude_strictMono.monotone hle
    have hlow := magnitude_strictMono.monotone (show magnitudeCount - 1 ≤ j by omega)
    linarith
  · intro hle
    by_contra hless
    rw [not_le] at hless
    have habove := hmidway.above
    have hlow := magnitude_strictMono.monotone (show nearestIndex v ≤ magnitudeCount - 1 by omega)
    have hhigh := magnitude_strictMono.monotone (show nearestIndex v + 1 ≤ magnitudeCount by omega)
    have heven := hmidway.even_above (by linarith)
    have hlast : nearestIndex v = magnitudeCount - 1 := magnitude_strictMono.injective (by linarith)
    rw [hlast] at heven
    exact absurd heven (by decide)

end Abacus.Binary64
