import Abacus.Proofs.Binary64.Operations
import Abacus.Proofs.ReadBack

namespace Abacus

open Text Token Binary64
open Numeral (intLimit)
open Abacus.Expr (parse)

/-- The integer that a text of digits stands for. -/
def integerOf (text : List Char) : Nat := Nat.ofDigitChars 10 text 0

/-- Digits as an integer is written. -/
structure IsInteger (text : List Char) : Prop where
  nonempty : text ≠ []
  isDigit : ∀ c ∈ text, c.isDigit
  zeros : (∀ c ∈ text, c = '0') ∨ text.head? ≠ some '0'

variable {text : List Char}

theorem scan_integer (hdigits : ∀ c ∈ text, c.isDigit) :
    Numeral.scan text = (⟨text, none, none⟩, []) := by
  have hscan := Numeral.scan_digits hdigits clear_nil
  rwa [List.append_nil] at hscan

theorem startsNumber_integer (hne : text ≠ []) (hdigits : ∀ c ∈ text, c.isDigit) :
    startsNumber text := by
  have hstart := startsNumber_of_digits hdigits hne []
  rwa [List.append_nil] at hstart

theorem coefficient_integer (text : List Char) :
    (Numeral.toDecimal ⟨text, none, none⟩).coefficient = integerOf text := by
  simp [Numeral.toDecimal, integerOf]

theorem hasLeadingZeros_iff :
    Numeral.hasLeadingZeros ⟨text, none, none⟩ ↔ text.head? = some '0' ∧ ∃ c ∈ text, c ≠ '0' := by
  rw [Numeral.hasLeadingZeros, Bool.and_eq_true, Bool.and_eq_true, beq_iff_eq, List.any_eq_true]
  simp only [bne_iff_ne, decide_eq_true_eq]
  constructor
  · rintro ⟨⟨_, hhead⟩, hother⟩
    exact ⟨hhead, hother⟩
  · rintro ⟨hhead, c, hc, hne⟩
    refine ⟨⟨?_, hhead⟩, c, hc, hne⟩
    -- The zero in front and the other digit are two.
    obtain ⟨rest, rfl⟩ := List.head?_eq_some_iff.1 hhead
    have hrest : c ∈ rest := List.mem_of_ne_of_mem hne hc
    exact Nat.succ_lt_succ (List.length_pos_of_mem hrest)

theorem IsInteger.hasLeadingZeros (h : IsInteger text) :
    Numeral.hasLeadingZeros ⟨text, none, none⟩ = false := by
  rw [Bool.eq_false_iff, ne_eq, hasLeadingZeros_iff]
  rintro ⟨hhead, c, hc, hne⟩
  rcases h.zeros with hzeros | hother
  · exact hne (hzeros c hc)
  · exact hother hhead

section Integer

variable (h : IsInteger text)

include h

/-- Up to the limit an integer is kept as it is, and from there on as a float. -/
theorem IsInteger.parse_eq :
    parse (.ofList text) =
      if leastInfinite ≤ integerOf text then .error .intTooLarge
      else .ok (.constant (.ofNat (integerOf text))) := by
  have hstart := startsNumber_integer h.nonempty h.isDigit
  have hparse := parse_whole hstart (scan_integer h.isDigit) rfl h.hasLeadingZeros
  rwa [coefficient_integer] at hparse

theorem IsInteger.compute_eq :
    compute (.ofList text) =
      if leastInfinite ≤ integerOf text then .error (.evaluation .intTooLarge)
      else .ok (.ofNat (integerOf text)) := by
  have hstart := startsNumber_integer h.nonempty h.isDigit
  have hcompute := compute_whole hstart (scan_integer h.isDigit) rfl h.hasLeadingZeros
  rwa [coefficient_integer] at hcompute

end Integer

theorem compute_leadingZeros (hdigits : ∀ c ∈ text, c.isDigit) (hhead : text.head? = some '0')
    (hother : ∃ c ∈ text, c ≠ '0') :
    compute (.ofList text) = .error (.evaluation (.malformed .leadingZeros 0)) := by
  have hne : text ≠ [] := by
    rintro rfl
    cases hhead
  have htoken : Numeral.toToken 0 ⟨text, none, none⟩ false = .error (.malformed .leadingZeros 0) := by
    have hzeros := hasLeadingZeros_iff.2 ⟨hhead, hother⟩
    simp [Numeral.toToken, Numeral.isWhole, hzeros]
  apply compute_of_error
  apply parse_of_listFrom
  rw [String.toList_ofList]
  exact listFrom_numeral (startsNumber_integer hne hdigits) (scan_integer hdigits) clear_nil htoken

/-- Of the numbers without the sign, one is nearest to an integer. -/
theorem roundsTo_ofNat_iff {n : Nat} {x : Binary64} :
    RoundsTo n x ∧ x.isNegative = false ↔ x = ofNat n := by
  have hrounds : RoundsTo n (ofNat n) := round_roundsTo _ _
  have hsign : (ofNat n).isNegative = false := by
    rw [ofNat, isNegative_round, decide_eq_false (Nat.cast_nonneg _).not_gt, ite_self]
  constructor
  · rintro ⟨hx, hnonneg⟩
    exact hx.unique hrounds (hnonneg.trans hsign.symm)
  · rintro rfl
    exact ⟨hrounds, hsign⟩

/-- Integers are computed in their order. -/
theorem lt_ofNat_of_le {n m : Nat} (h : n ≤ m) (hfinite : m < leastInfinite) :
    (ofNat m).lt (ofNat n) = false := by
  have hvalue {k : Nat} (hk : k < leastInfinite) : (ofNat k).value? = some (rounded k) := by
    apply value?_round_of_isFinite
    exact (isFinite_ofNat k).trans (decide_eq_true hk)
  have hmono : rounded n ≤ rounded m := rounded_mono (Nat.cast_le.2 h)
  rw [lt_eq (hvalue hfinite) (hvalue (h.trans_lt hfinite)), decide_eq_false hmono.not_gt]

/-- An integer of any length is computed to the binary64 nearest to it, or refused if that is an
infinity. The tree has the integer itself if it is less than `2 ^ 63`, and else that binary64; either
way integers are computed in their order. No other digits may follow a zero in front. -/
theorem integers_nearest :
    (∀ text, IsInteger text → ∃ x,
      (∀ y, RoundsTo (integerOf text) y ∧ y.isNegative = false ↔ y = x) ∧
      (x.isFinite = false ↔ 2 ^ 1024 - 2 ^ 970 ≤ integerOf text) ∧
      compute (.ofList text) = (if x.isFinite then .ok x else .error (.evaluation .intTooLarge)) ∧
      (integerOf text < 2 ^ 63 →
        ∃ n : Int64, n.toInt = integerOf text ∧ parse (.ofList text) = .ok (.constant (.int n))) ∧
      (2 ^ 63 ≤ integerOf text → x.isFinite → parse (.ofList text) = .ok (.constant (.float x)))) ∧
    (∀ text : List Char, (∀ c ∈ text, c.isDigit) → text.head? = some '0' → (∃ c ∈ text, c ≠ '0') →
      compute (.ofList text) = .error (.evaluation (.malformed .leadingZeros 0))) ∧
    ∀ text other, IsInteger text → IsInteger other → integerOf text ≤ integerOf other →
      ∀ y, compute (.ofList other) = .ok y → ∃ x, compute (.ofList text) = .ok x ∧ y.lt x = false := by
  refine ⟨?nearest, fun _ => compute_leadingZeros, ?ordered⟩
  case nearest =>
    intro text h
    have hparse := h.parse_eq
    have hcompute := h.compute_eq
    have hfinite := isFinite_ofNat (integerOf text)
    refine ⟨ofNat (integerOf text), fun _ => roundsTo_ofNat_iff, ?bound, ?computed, ?int, ?float⟩
    case bound =>
      rw [hfinite, decide_eq_false_iff_not, not_lt]
      rfl
    case computed =>
      rw [hcompute, hfinite]
      by_cases hless : integerOf text < leastInfinite
      · rw [if_neg hless.not_ge, if_pos (decide_eq_true hless)]
      · rw [if_pos (not_lt.1 hless), if_neg (by rwa [decide_eq_true_iff])]
    case int =>
      intro hsmall
      have hlimit : integerOf text < intLimit := hsmall
      refine ⟨.ofNat (integerOf text), Int64.toInt_ofNat_of_lt hsmall, ?_⟩
      rw [hparse, if_neg (hlimit.trans Numeral.intLimit_lt_leastInfinite).not_ge, Constant.ofNat,
        if_pos hlimit]
    case float =>
      intro hgreat hx
      have hlimit : intLimit ≤ integerOf text := hgreat
      rw [hfinite, decide_eq_true_iff] at hx
      rw [hparse, if_neg hx.not_ge, Constant.ofNat, if_neg hlimit.not_gt]
  case ordered =>
    intro text other h hother hle y hy
    rw [hother.compute_eq] at hy
    split at hy
    · cases hy
    · rename_i hless
      rw [not_le] at hless
      cases hy
      refine ⟨_, ?_, lt_ofNat_of_le hle hless⟩
      rw [h.compute_eq, if_neg (hle.trans_lt hless).not_ge]

theorem integers_nearest_at_limit :
    IsInteger "9223372036854775807".toList ∧ IsInteger "9223372036854775809".toList ∧
      parse "9223372036854775807" = .ok (.constant (.int .maxValue)) ∧
      compute "007" = .error (.evaluation (.malformed .leadingZeros 0)) ∧
      ∃ x y, RoundsTo (2 ^ 63 + 1 : Nat) y ∧ compute "9223372036854775807" = .ok x ∧
        compute "9223372036854775809" = .ok y ∧
        parse "9223372036854775809" = .ok (.constant (.float y)) ∧ y.lt x = false := by
  have hbelow : IsInteger "9223372036854775807".toList :=
    ⟨by decide, List.all_eq_true.1 (by decide), .inr (by decide)⟩
  have habove : IsInteger "9223372036854775809".toList :=
    ⟨by decide, List.all_eq_true.1 (by decide), .inr (by decide)⟩
  have hbelowint : integerOf "9223372036854775807".toList = 2 ^ 63 - 1 := by decide
  have haboveint : integerOf "9223372036854775809".toList = 2 ^ 63 + 1 := by decide
  obtain ⟨hnearest, hzeros, hordered⟩ := integers_nearest
  obtain ⟨_, _, _, _, hint, _⟩ := hnearest _ hbelow
  obtain ⟨y, hy, hinfinite, hcompute, _, hfloat⟩ := hnearest _ habove
  have hfinite : y.isFinite := by
    rw [← Bool.not_eq_false, hinfinite, haboveint]
    decide +kernel
  rw [if_pos hfinite] at hcompute
  obtain ⟨x, hx, hless⟩ := hordered _ _ hbelow habove (by rw [hbelowint, haboveint]; decide) y hcompute
  obtain ⟨n, hn, hparse⟩ := hint (by rw [hbelowint]; decide)
  rw [hbelowint] at hn
  obtain rfl : n = .maxValue := Int64.toInt_inj.1 hn
  rw [haboveint] at hy hfloat
  rw [String.ofList_toList] at hparse hcompute hx hfloat
  have hleading := hzeros ['0', '0', '7'] (List.all_eq_true.1 rfl) rfl ⟨'7', by decide, by decide⟩
  exact ⟨hbelow, habove, hparse, hleading, x, y, ((hy y).2 rfl).1, hx, hcompute,
    hfloat (by decide) hfinite, hless⟩

end Abacus
