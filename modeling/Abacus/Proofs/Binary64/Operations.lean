import Abacus.Binary64.Arithmetic
import Abacus.Proofs.Binary64.Signed

namespace Abacus.Binary64

variable {a b : Binary64} {v w : Rat}

theorem signed_not (s : Bool) (index : Nat) : signed (!s) index = -signed s index := by
  cases s with
  | false => rfl
  | true => exact (neg_neg _).symm

theorem value?_neg (ha : a.value? = some v) : (-a).value? = some (-v) := by
  obtain ⟨s, i, rfl, rfl⟩ := exists_of_value? ha
  exact congrArg some (signed_not s i)

theorem exists_add (ha : a.value? = some v) (hb : b.value? = some w) :
    ∃ z, a + b = round z (v + w) := by
  obtain ⟨s, i, rfl, rfl⟩ := exists_of_value? ha
  obtain ⟨t, j, rfl, rfl⟩ := exists_of_value? hb
  exact ⟨_, rfl⟩

theorem exists_sub (ha : a.value? = some v) (hb : b.value? = some w) :
    ∃ z, a - b = round z (v - w) := by
  rw [sub_eq_add_neg v w]
  exact exists_add ha (value?_neg hb)

theorem exists_mul (ha : a.value? = some v) (hb : b.value? = some w) :
    ∃ z, a * b = round z (v * w) := by
  obtain ⟨s, i, rfl, rfl⟩ := exists_of_value? ha
  obtain ⟨t, j, rfl, rfl⟩ := exists_of_value? hb
  exact ⟨_, rfl⟩

theorem signed_eq_zero_iff {s : Bool} {index : Nat} : signed s index = 0 ↔ index = 0 := by
  rw [← abs_eq_zero, abs_signed, magnitude_eq_zero_iff]

theorem exists_div (ha : a.value? = some v) (hb : b.value? = some w) (hne : w ≠ 0) :
    ∃ z, a / b = round z (v / w) := by
  obtain ⟨s, i, rfl, rfl⟩ := exists_of_value? ha
  obtain ⟨t, j, rfl, rfl⟩ := exists_of_value? hb
  exact ⟨_, if_neg fun h => hne (signed_eq_zero_iff.2 h)⟩

theorem exists_rem (ha : a.value? = some v) (hb : b.value? = some w) (hne : w ≠ 0) :
    ∃ z, a % b = round z (v - w * truncate (v / w)) := by
  obtain ⟨s, i, rfl, rfl⟩ := exists_of_value? ha
  obtain ⟨t, j, rfl, rfl⟩ := exists_of_value? hb
  exact ⟨_, if_neg fun h => hne (signed_eq_zero_iff.2 h)⟩

theorem isZero_eq (ha : a.value? = some v) : a.isZero = decide (v = 0) := by
  obtain ⟨s, i, rfl, rfl⟩ := exists_of_value? ha
  rw [decide_eq_decide.2 signed_eq_zero_iff]
  rfl

theorem isBelowZero_eq (ha : a.value? = some v) : a.isBelowZero = decide (v < 0) := by
  obtain ⟨s, i, rfl, rfl⟩ := exists_of_value? ha
  have hnonneg := magnitude_nonneg i
  cases s with
  | false =>
    rw [decide_eq_false (show ¬signed false i < 0 from hnonneg.not_gt)]
    rfl
  | true =>
    have hbelow : signed true i < 0 ↔ (i : Nat) ≠ 0 := by
      rw [ne_eq, ← magnitude_eq_zero_iff]
      exact neg_neg_iff_pos.trans hnonneg.lt_iff_ne'
    rw [decide_eq_decide.2 hbelow, decide_not]
    rfl

theorem isNegative_eq (ha : a.value? = some v) (hne : v ≠ 0) : a.isNegative = decide (v < 0) := by
  have hbelow := isBelowZero_eq ha
  rw [isBelowZero, isZero_eq ha, decide_eq_false hne] at hbelow
  rwa [Bool.not_false, Bool.and_true] at hbelow

/-- Numbers have the order of their indices with the sign. -/
theorem signed_lt_signed_iff {s t : Bool} {i j : Nat} :
    signed s i < signed t j ↔ signedIndex s i < signedIndex t j := by
  have hindex (i j : Nat) : magnitude i < magnitude j ↔ i < j := magnitude_strictMono.lt_iff_lt
  have hi := magnitude_nonneg i
  have hj := magnitude_nonneg j
  cases s <;> cases t
  · exact (hindex i j).trans Int.ofNat_lt.symm
  · exact iff_of_false (show ¬magnitude i < -magnitude j by linarith)
      (show ¬(i : Int) < -(j : Int) by omega)
  · have hboth : -magnitude i < magnitude j ↔ ¬(i = 0 ∧ j = 0) := by
      rw [← @magnitude_eq_zero_iff i, ← @magnitude_eq_zero_iff j]
      constructor
      · rintro hless ⟨hzero, hzero'⟩
        linarith
      · intro hne
        by_contra hge
        exact hne ⟨by linarith, by linarith⟩
    exact hboth.trans (show ¬(i = 0 ∧ j = 0) ↔ -(i : Int) < j by omega)
  · exact (neg_lt_neg_iff.trans (hindex j i)).trans
      (show j < i ↔ -(i : Int) < -(j : Int) by omega)

theorem lt_eq (ha : a.value? = some v) (hb : b.value? = some w) : a.lt b = decide (v < w) := by
  obtain ⟨s, i, rfl, rfl⟩ := exists_of_value? ha
  obtain ⟨t, j, rfl, rfl⟩ := exists_of_value? hb
  rw [decide_eq_decide.2 signed_lt_signed_iff]
  rfl

theorem value?_zero (s : Bool) : (zero s).value? = some 0 := by
  cases s with
  | false => exact congrArg some magnitude_zero
  | true => exact congrArg some (neg_eq_zero.2 magnitude_zero)

theorem value?_one : one.value? = some 1 := congrArg some (magnitude_binade 1022)

theorem value?_half : half.value? = some (1 / 2) := by
  have hhalf : magnitude (1022 * binade) = 1 / 2 := by
    rw [magnitude_binade 1021]
    norm_num
  exact congrArg some hhalf

end Abacus.Binary64
