import Mathlib.Algebra.Order.Group.Pointwise.Interval
import Abacus.Proofs.Binary64.Signed
import Abacus.Proofs.Decimal.Printed

namespace Abacus.Decimal

open Binary64

variable {index dropped m n : Nat} {v w : Rat} {d : Decimal}

/-- A multiple of the unit of the grid that drops so many of the last digits of a magnitude. -/
def gridPoint (index dropped m : Nat) : Rat :=
  (Decimal.mk m ((ofMagnitude index).exponent + dropped)).value

/-- The unit of the last digit of a magnitude that is written out in full. -/
def lastUnit (index : Nat) : Rat := 10 ^ (ofMagnitude index).exponent

/-- The number of the last grid point up to a magnitude. -/
def lastBelow (index dropped : Nat) : Nat := (ofMagnitude index).coefficient / 10 ^ dropped

/-- What the grid leaves out of a magnitude, in units of its last digit. -/
def leftOut (index dropped : Nat) : Nat := (ofMagnitude index).coefficient % 10 ^ dropped

theorem lastUnit_pos (index : Nat) : 0 < lastUnit index := ten_zpow_pos _

theorem gridPoint_eq (index dropped m : Nat) :
    gridPoint index dropped m = (m * 10 ^ dropped : Nat) * lastUnit index := by
  unfold gridPoint value lastUnit
  rw [zpow_add₀ (by norm_num), zpow_natCast]
  push_cast
  ring

/-- The finest grid has the magnitude itself. -/
theorem gridPoint_exact (index : Nat) :
    gridPoint index 0 (ofMagnitude index).coefficient = magnitude index := by
  rw [gridPoint, Nat.cast_zero, add_zero, value_ofMagnitude]

theorem gridPoint_mono (index dropped : Nat) (h : m ≤ n) : gridPoint index dropped m ≤ gridPoint index dropped n := by
  have hunit := lastUnit_pos index
  rw [gridPoint_eq, gridPoint_eq]
  gcongr

theorem magnitude_eq (index dropped : Nat) :
    magnitude index =
      gridPoint index dropped (lastBelow index dropped) + leftOut index dropped * lastUnit index := by
  have hsplit := Nat.div_add_mod' (ofMagnitude index).coefficient (10 ^ dropped)
  have hvalue : magnitude index = (ofMagnitude index).coefficient * lastUnit index :=
    (value_ofMagnitude index).symm
  rw [hvalue, gridPoint_eq, ← add_mul, ← Nat.cast_add, lastBelow, leftOut, hsplit]

theorem gridPoint_succ (index dropped : Nat) :
    gridPoint index dropped (lastBelow index dropped + 1) =
      magnitude index + ((10 ^ dropped : Nat) - leftOut index dropped : Rat) * lastUnit index := by
  rw [magnitude_eq index dropped, gridPoint_eq, gridPoint_eq, Nat.succ_mul]
  push_cast
  ring

theorem leftOut_lt (index dropped : Nat) : leftOut index dropped < 10 ^ dropped :=
  Nat.mod_lt _ (Nat.pow_pos (by decide))

theorem gridPoint_le_magnitude (h : m ≤ lastBelow index dropped) :
    gridPoint index dropped m ≤ magnitude index := by
  have hbelow := gridPoint_mono index dropped h
  have hrest := mul_nonneg (Nat.cast_nonneg (α := Rat) (leftOut index dropped)) (lastUnit_pos index).le
  have hsplit := magnitude_eq index dropped
  linarith

theorem magnitude_le_gridPoint (h : lastBelow index dropped < m) :
    magnitude index ≤ gridPoint index dropped m := by
  have habove := gridPoint_mono index dropped (Nat.succ_le_of_lt h)
  have hless : (leftOut index dropped : Rat) ≤ (10 ^ dropped : Nat) := by
    exact_mod_cast (leftOut_lt index dropped).le
  have hrest := mul_nonneg (sub_nonneg.2 hless) (lastUnit_pos index).le
  have hsplit := gridPoint_succ index dropped
  rw [Nat.succ_eq_add_one] at habove
  linarith

/-- What lies between a magnitude and something that reads as it reads as it too. -/
theorem nearestIndex_of_between (hv : 0 ≤ v) (h : nearestIndex v = index)
    (hw : w ∈ Set.uIcc (magnitude index) v) : nearestIndex w = index := by
  have hself := nearestIndex_magnitude index
  rcases Set.mem_uIcc.1 hw with ⟨hlow, hhigh⟩ | ⟨hlow, hhigh⟩
  · have hge := nearestIndex_mono (magnitude_nonneg index) hlow
    have hle := nearestIndex_mono (le_trans (magnitude_nonneg index) hlow) hhigh
    omega
  · have hge := nearestIndex_mono hv hlow
    have hle := nearestIndex_mono (le_trans hv hlow) hhigh
    omega

/-- One of the two grid points next to a magnitude lies on the way to any other. -/
theorem exists_neighbour (index dropped m : Nat) :
    ∃ side, (side = lastBelow index dropped ∨ side = lastBelow index dropped + 1) ∧
      gridPoint index dropped side ∈ Set.uIcc (magnitude index) (gridPoint index dropped m) := by
  rcases Nat.lt_or_ge (lastBelow index dropped) m with hgreat | hsmall
  · refine ⟨_, .inr rfl, Set.mem_uIcc.2 (.inl ⟨?_, gridPoint_mono _ _ hgreat⟩)⟩
    exact magnitude_le_gridPoint (Nat.lt_succ_self _)
  · refine ⟨_, .inl rfl, Set.mem_uIcc.2 (.inr ⟨gridPoint_mono _ _ hsmall, ?_⟩)⟩
    exact gridPoint_le_magnitude le_rfl

/-- A point that the search may take from a grid: it reads as the magnitude, and of the two next to the
magnitude none that does is closer. -/
structure IsTaken (index dropped : Nat) (d : Decimal) : Prop where
  neighbour : ∃ side, (side = lastBelow index dropped ∨ side = lastBelow index dropped + 1) ∧
    d = ⟨side, (ofMagnitude index).exponent + dropped⟩
  reads : nearestIndex d.value = index
  closest : ∀ side, side = lastBelow index dropped ∨ side = lastBelow index dropped + 1 →
    nearestIndex (gridPoint index dropped side) = index →
    |d.value - magnitude index| ≤ |gridPoint index dropped side - magnitude index|

theorem abs_below_sub (index dropped : Nat) :
    |gridPoint index dropped (lastBelow index dropped) - magnitude index| =
      leftOut index dropped * lastUnit index := by
  have hsplit := magnitude_eq index dropped
  have hnonneg := mul_nonneg (Nat.cast_nonneg (α := Rat) (leftOut index dropped)) (lastUnit_pos index).le
  rw [abs_sub_comm, abs_of_nonneg] <;> linarith

theorem abs_above_sub (index dropped : Nat) :
    |gridPoint index dropped (lastBelow index dropped + 1) - magnitude index| =
      (10 ^ dropped - leftOut index dropped : Nat) * lastUnit index := by
  have hle := (leftOut_lt index dropped).le
  rw [gridPoint_succ, add_sub_cancel_left, ← Nat.cast_sub hle]
  exact abs_of_nonneg (mul_nonneg (Nat.cast_nonneg _) (lastUnit_pos index).le)

theorem below_lt_above_iff (index dropped : Nat) :
    |gridPoint index dropped (lastBelow index dropped) - magnitude index| <
        |gridPoint index dropped (lastBelow index dropped + 1) - magnitude index| ↔
      2 * leftOut index dropped < 10 ^ dropped := by
  have hlt := leftOut_lt index dropped
  rw [abs_below_sub, abs_above_sub, mul_lt_mul_iff_left₀ (lastUnit_pos index), Nat.cast_lt]
  omega

theorem readsAs_iff : d.readsAs index = true ↔ nearestIndex d.value = index := beq_iff_eq

theorem readsAs_eq_false_iff : d.readsAs index = false ↔ nearestIndex d.value ≠ index :=
  beq_eq_false_iff_ne

/-- What the search takes from a grid. -/
theorem isTaken_of_onGrid (h : onGrid index (ofMagnitude index) dropped = some d) :
    IsTaken index dropped d := by
  have horder := below_lt_above_iff index dropped
  unfold onGrid at h
  dsimp only at h
  split at h
  case h_1 hbelow habove =>
    rw [readsAs_iff] at hbelow habove
    split at h
    case isTrue hless =>
      cases h
      refine ⟨⟨_, .inl rfl, rfl⟩, hbelow, ?_⟩
      rintro side (rfl | rfl) _
      · exact le_rfl
      · exact (horder.2 hless).le
    case isFalse hless =>
      cases h
      refine ⟨⟨_, .inr rfl, rfl⟩, habove, ?_⟩
      rintro side (rfl | rfl) _
      · exact not_lt.1 (mt horder.1 hless)
      · exact le_rfl
  case h_2 hbelow habove =>
    rw [readsAs_iff] at hbelow
    rw [readsAs_eq_false_iff] at habove
    cases h
    refine ⟨⟨_, .inl rfl, rfl⟩, hbelow, ?_⟩
    rintro side (rfl | rfl) hreads
    · exact le_rfl
    · exact absurd hreads habove
  case h_3 hbelow habove =>
    rw [readsAs_eq_false_iff] at hbelow
    rw [readsAs_iff] at habove
    cases h
    refine ⟨⟨_, .inr rfl, rfl⟩, habove, ?_⟩
    rintro side (rfl | rfl) hreads
    · exact absurd hreads hbelow
    · exact le_rfl
  case h_4 => cases h

/-- The search passes over a grid only if no point of it reads as the magnitude. -/
theorem nearestIndex_ne_of_onGrid (h : onGrid index (ofMagnitude index) dropped = none) (m : Nat) :
    nearestIndex (gridPoint index dropped m) ≠ index := by
  intro hreads
  obtain ⟨side, hside, hbetween⟩ := exists_neighbour index dropped m
  have hneighbour := nearestIndex_of_between (value_nonneg _) hreads hbetween
  unfold onGrid at h
  dsimp only at h
  split at h
  case h_1 => cases h
  case h_2 => cases h
  case h_3 => cases h
  case h_4 hbelow habove =>
    rw [readsAs_eq_false_iff] at hbelow habove
    rcases hside with rfl | rfl
    · exact hbelow hneighbour
    · exact habove hneighbour

/-- How many digits a magnitude has that is written out in full. -/
def exactLength (index : Nat) : Nat := (Nat.toDigits 10 (ofMagnitude index).coefficient).length

/-- The search ends at the coarsest grid with a point that reads as the magnitude. -/
theorem exists_grid (index : Nat) :
    ∃ dropped < exactLength index, IsTaken index dropped (shortest index) ∧
      ∀ coarser m, dropped < coarser → coarser < exactLength index →
        nearestIndex (gridPoint index coarser m) ≠ index := by
  have hlength : 0 < exactLength index := Nat.length_toDigits_pos
  cases hfound : ((List.range (exactLength index)).reverse.findSome? (onGrid index (ofMagnitude index))) with
  | none =>
    have hexact := List.findSome?_eq_none_iff.1 hfound 0 (by simpa using hlength)
    have hreads := nearestIndex_ne_of_onGrid hexact (ofMagnitude index).coefficient
    rw [gridPoint_exact] at hreads
    exact absurd (nearestIndex_magnitude index) hreads
  | some d =>
    have hshortest : shortest index = d := by
      unfold shortest
      dsimp only
      rw [← exactLength, hfound]
      rfl
    obtain ⟨front, dropped, rest, hgrids, htaken, hfront⟩ := List.findSome?_eq_some_iff.1 hfound
    have hmem (k : Nat) : k < exactLength index ↔ k ∈ front ++ dropped :: rest := by
      rw [← hgrids, List.mem_reverse, List.mem_range]
    have hordered : (front ++ dropped :: rest).Pairwise (fun a b => b < a) := by
      rw [← hgrids, List.pairwise_reverse]
      exact List.pairwise_lt_range
    rw [List.pairwise_append, List.pairwise_cons] at hordered
    rw [hshortest]
    refine ⟨dropped, (hmem dropped).2 (by simp), isTaken_of_onGrid htaken, ?_⟩
    intro coarser m hless hcoarser
    apply nearestIndex_ne_of_onGrid
    apply hfront
    rcases List.mem_append.1 ((hmem coarser).1 hcoarser) with hbefore | hbehind
    · exact hbefore
    · rcases List.mem_cons.1 hbehind with rfl | hlater
      · exact absurd hless (Nat.lt_irrefl _)
      · exact absurd (hordered.2.1.1 coarser hlater) (Nat.not_lt_of_gt hless)

theorem ofDigitChars_significantDigits_mod (h : d.significantDigits ≠ []) :
    Nat.ofDigitChars 10 d.significantDigits 0 % 10 ≠ 0 := by
  have hclear := d.clear_reverse_significantDigits
  have hdigits := d.isDigit_of_mem_significantDigits
  obtain ⟨front, last, hsplit⟩ := List.eq_nil_or_concat d.significantDigits |>.resolve_left h
  rw [List.concat_eq_append] at hsplit
  rw [hsplit] at hclear hdigits ⊢
  rw [List.reverse_append, List.reverse_singleton, List.singleton_append, Text.clear_cons,
    beq_eq_false_iff_ne] at hclear
  have hdigit := Char.isDigit_iff_toNat.1 (hdigits last (by simp))
  have hzero : last.toNat ≠ '0'.toNat := fun hsame => hclear (Char.toNat_inj.1 hsame)
  have hlow : '0'.toNat = 48 := rfl
  have hhigh : '9'.toNat = 57 := rfl
  rw [Nat.ofDigitChars_append, Nat.ofDigitChars_cons, Nat.ofDigitChars_nil]
  omega

/-- Zeros behind a number are not counted among its significant digits. -/
theorem length_significantDigits_le {s z r : Nat} (h : d.coefficient = s * 10 ^ z) (hs : s < 10 ^ r) :
    d.significantDigits.length ≤ r := by
  by_contra hlong
  obtain ⟨zeros, hdigits⟩ := d.toDigits_eq_significant
  have hcoefficient := Nat.ofDigitChars_ten_toDigits (n := d.coefficient)
  rw [hdigits, ofDigitChars_append_zeros] at hcoefficient
  have hlength := congrArg List.length hdigits
  rw [List.length_append, List.length_replicate] at hlength
  have hlast := ofDigitChars_significantDigits_mod (d := d) (by
    intro hnil
    simp [hnil] at hlong)
  generalize Nat.ofDigitChars 10 d.significantDigits 0 = number at *
  have hgreat : 10 ^ r ≤ number := by
    by_contra hsmall
    have hpositive : r ≠ 0 := by
      rintro rfl
      omega
    have hless : d.coefficient < 10 ^ (r + zeros) := by
      rw [← hcoefficient, Nat.pow_add, Nat.mul_comm]
      exact Nat.mul_lt_mul_of_pos_right (Nat.lt_of_not_le hsmall) (Nat.pow_pos (by decide))
    have hshort := (Nat.length_toDigits_le_iff (by decide) (by omega)).2 hless
    omega
  rcases Nat.lt_or_ge zeros z with hmore | hless
  · obtain ⟨more, rfl⟩ := Nat.exists_eq_add_of_le hmore
    have hsame : number = s * 10 ^ more * 10 := by
      apply Nat.eq_of_mul_eq_mul_left (Nat.pow_pos (n := zeros) (by decide : 0 < 10))
      rw [hcoefficient, h, Nat.pow_add, Nat.pow_succ]
      ring
    omega
  · obtain ⟨more, rfl⟩ := Nat.exists_eq_add_of_le hless
    have hsame : 10 ^ more * number = s := by
      apply Nat.eq_of_mul_eq_mul_left (Nat.pow_pos (n := z) (by decide : 0 < 10))
      rw [Nat.mul_comm (10 ^ z) s, ← h, ← hcoefficient, Nat.pow_add]
      ring
    have hle : number ≤ 10 ^ more * number := Nat.le_mul_of_pos_left _ (Nat.pow_pos (by decide))
    omega

theorem coefficient_ofMagnitude_ne_zero (h : index ≠ 0) : (ofMagnitude index).coefficient ≠ 0 := by
  intro hzero
  have hvalue := value_ofMagnitude index
  rw [value_of_zero hzero] at hvalue
  exact (magnitude_pos h).ne hvalue

/-- The coarsest grid drops all digits but the first. -/
theorem gridPoint_coarsest (index m : Nat) :
    gridPoint index (exactLength index - 1) m =
      m * (10 : Rat) ^ ((ofMagnitude index).pointPosition - 1) := by
  have hlength : 0 < exactLength index := Nat.length_toDigits_pos
  have hposition : (ofMagnitude index).pointPosition - 1 =
      (ofMagnitude index).exponent + (exactLength index - 1 : Nat) := by
    unfold pointPosition
    rw [← exactLength]
    omega
  rw [gridPoint, value, hposition]

theorem gridPoint_first (index : Nat) :
    gridPoint index (exactLength index - 1) 1 = 10 ^ ((ofMagnitude index).pointPosition - 1) := by
  rw [gridPoint_coarsest, Nat.cast_one, one_mul]

theorem gridPoint_last (index : Nat) :
    gridPoint index (exactLength index - 1) 10 = 10 ^ (ofMagnitude index).pointPosition := by
  rw [gridPoint_coarsest, Nat.cast_ofNat, mul_comm, ← zpow_add_one₀ (by norm_num), sub_add_cancel]

/-- Between a magnitude and a decimal there is a point of a grid that leaves no more digits than the
decimal has. -/
theorem exists_gridPoint_between (hindex : index ≠ 0) (hd : d.coefficient ≠ 0) :
    ∃ dropped m, dropped < exactLength index ∧
      exactLength index ≤ d.significantDigits.length + dropped ∧
      gridPoint index dropped m ∈ Set.uIcc (magnitude index) d.value := by
  have hlength : 0 < exactLength index := Nat.length_toDigits_pos
  have hdigits := List.length_pos_iff.2 (significantDigits_ne_nil hd)
  have hexact : (ofMagnitude index).pointPosition = exactLength index + (ofMagnitude index).exponent := rfl
  rcases lt_trichotomy d.pointPosition (ofMagnitude index).pointPosition with hless | hsame | hmore
  · -- The power of ten that the magnitude starts at.
    have hbelow : d.value ≤ gridPoint index (exactLength index - 1) 1 := by
      rw [gridPoint_first]
      exact le_trans d.value_lt.le (ten_zpow_le (by omega))
    have habove : gridPoint index (exactLength index - 1) 1 ≤ magnitude index := by
      rw [gridPoint_first, ← value_ofMagnitude]
      exact ten_zpow_le_value (coefficient_ofMagnitude_ne_zero hindex)
    exact ⟨_, 1, Nat.sub_one_lt_of_lt hlength, by omega, Set.mem_uIcc.2 (.inr ⟨hbelow, habove⟩)⟩
  · by_cases hshort : d.significantDigits.length ≤ exactLength index
    · have hvalue : gridPoint index (exactLength index - d.significantDigits.length)
          (Nat.ofDigitChars 10 d.significantDigits 0) = d.value := by
        rw [d.value_eq_significant, gridPoint, value]
        dsimp only
        congr 2
        omega
      refine ⟨exactLength index - d.significantDigits.length, Nat.ofDigitChars 10 d.significantDigits 0,
        by omega, by omega, ?_⟩
      rw [hvalue]
      exact Set.right_mem_uIcc
    · refine ⟨0, (ofMagnitude index).coefficient, hlength, by omega, ?_⟩
      rw [gridPoint_exact]
      exact Set.left_mem_uIcc
  · -- The power of ten that comes after the magnitude.
    have hbelow : magnitude index ≤ gridPoint index (exactLength index - 1) 10 := by
      rw [gridPoint_last, ← value_ofMagnitude]
      exact (value_lt _).le
    have habove : gridPoint index (exactLength index - 1) 10 ≤ d.value := by
      rw [gridPoint_last]
      exact (ten_zpow_le_value_iff hd).2 hmore
    exact ⟨_, 10, Nat.sub_one_lt_of_lt hlength, by omega, Set.mem_uIcc.2 (.inl ⟨hbelow, habove⟩)⟩

/-- What the search takes from a grid has no more digits than the grid leaves. -/
theorem IsTaken.length_le (h : IsTaken index dropped d) (hdropped : dropped < exactLength index) :
    d.significantDigits.length ≤ exactLength index - dropped := by
  obtain ⟨side, hside, rfl⟩ := h.neighbour
  have hexact : (ofMagnitude index).coefficient < 10 ^ exactLength index :=
    (Nat.length_toDigits_le_iff (by decide) Nat.length_toDigits_pos).1 (Nat.le_refl _)
  have hbelow : lastBelow index dropped < 10 ^ (exactLength index - dropped) := by
    apply Nat.div_lt_of_lt_mul
    rwa [← Nat.pow_add, Nat.add_sub_cancel' hdropped.le]
  have hle : side ≤ 10 ^ (exactLength index - dropped) := by omega
  rcases Nat.eq_or_lt_of_le hle with heq | hless
  · exact length_significantDigits_le (s := 1) (by rw [heq, Nat.one_mul])
      (Nat.one_lt_pow (by omega) (by decide))
  · exact length_significantDigits_le (z := 0) (by rw [Nat.pow_zero, Nat.mul_one]) hless

theorem coefficient_ne_zero_of_reads (hindex : index ≠ 0) (h : nearestIndex d.value = index) :
    d.coefficient ≠ 0 := by
  intro hzero
  rw [value_of_zero hzero] at h
  exact hindex h.symm

/-- The grid on which the shortest decimal lies is the coarsest that has a point on the way to a decimal
that reads as the magnitude. -/
theorem exists_common_grid (hindex : index ≠ 0) (h : nearestIndex d.value = index) :
    ∃ dropped coarser m, coarser ≤ dropped ∧ dropped < exactLength index ∧
      exactLength index ≤ d.significantDigits.length + coarser ∧
      IsTaken index dropped (shortest index) ∧
      nearestIndex (gridPoint index coarser m) = index ∧
      |gridPoint index coarser m - magnitude index| ≤ |d.value - magnitude index| := by
  obtain ⟨dropped, hdropped, htaken, hcoarser⟩ := exists_grid index
  obtain ⟨k, m, hk, hlength, hbetween⟩ :=
    exists_gridPoint_between hindex (coefficient_ne_zero_of_reads hindex h)
  have hreads := nearestIndex_of_between d.value_nonneg h hbetween
  have hle : k ≤ dropped := by
    by_contra hless
    exact hcoarser k m (Nat.lt_of_not_le hless) hk hreads
  exact ⟨dropped, k, m, hle, hdropped, hlength, htaken, hreads, Set.abs_sub_left_of_mem_uIcc hbetween⟩

/-- No decimal with fewer digits than the shortest reads as the magnitude. -/
theorem length_shortest_le (hindex : index ≠ 0) (h : nearestIndex d.value = index) :
    (shortest index).significantDigits.length ≤ d.significantDigits.length := by
  obtain ⟨dropped, coarser, m, hle, hdropped, hlength, htaken, _⟩ := exists_common_grid hindex h
  have hshortest := htaken.length_le hdropped
  omega

/-- None with as many is closer to it. -/
theorem abs_shortest_sub_le (hindex : index ≠ 0) (h : nearestIndex d.value = index)
    (hsame : d.significantDigits.length = (shortest index).significantDigits.length) :
    |(shortest index).value - magnitude index| ≤ |d.value - magnitude index| := by
  obtain ⟨dropped, coarser, m, hle, hdropped, hlength, htaken, hreads, hcloser⟩ :=
    exists_common_grid hindex h
  have hshortest := htaken.length_le hdropped
  obtain rfl : coarser = dropped := by omega
  obtain ⟨side, hside, hbetween⟩ := exists_neighbour index coarser m
  have hneighbour := nearestIndex_of_between (value_nonneg _) hreads hbetween
  calc |(shortest index).value - magnitude index|
      ≤ |gridPoint index coarser side - magnitude index| := htaken.closest side hside hneighbour
    _ ≤ |gridPoint index coarser m - magnitude index| := Set.abs_sub_left_of_mem_uIcc hbetween
    _ ≤ |d.value - magnitude index| := hcloser

end Abacus.Decimal
