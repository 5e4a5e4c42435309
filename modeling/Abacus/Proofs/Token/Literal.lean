import Abacus.Proofs.Binary64.Nearest
import Abacus.Proofs.Canonical.Spelling
import Abacus.Proofs.Grammar.Phrase

namespace Abacus

open Text Binary64

/-- The number with the magnitude of an index, or an infinity if the index is past the finite ones. -/
def Binary64.ofIndex (index : Nat) : Binary64 :=
  if h : index < magnitudeCount then finite false ⟨index, h⟩ else infinity false

theorem Binary64.isFinite_ofIndex (index : Nat) :
    (ofIndex index).isFinite = decide (index < magnitudeCount) := by
  unfold ofIndex
  split
  · exact (decide_eq_true ‹_›).symm
  · exact (decide_eq_false ‹_›).symm

theorem Binary64.round_eq_ofIndex {v : Rat} (hv : 0 ≤ v) : round false v = ofIndex (nearestIndex v) := by
  rcases hv.eq_or_lt with rfl | hpos
  · rfl
  · exact Decimal.round_of_pos hpos

theorem Decimal.toBinary64_eq_ofIndex (d : Decimal) : d.toBinary64 = ofIndex (nearestIndex d.value) := by
  rw [toBinary64_eq_round, round_eq_ofIndex d.value_nonneg]

theorem Decimal.toBinary64_natCast (n : Nat) : (Decimal.mk n 0).toBinary64 = .ofNat n := by
  rw [toBinary64_eq_round, value, zpow_zero, mul_one]
  rfl

theorem Binary64.ofInt_natCast (n : Nat) : ofInt n = ofNat n := by
  rw [ofInt, ofNat, Int.cast_natCast]

theorem Binary64.isFinite_ofNat (n : Nat) : (ofNat n).isFinite = decide (n < leastInfinite) := by
  have hlimit := magnitudeCount_le_nearestIndex_iff (v := n) (Nat.cast_nonneg n)
  rw [Nat.cast_le] at hlimit
  rw [ofNat, round_eq_ofIndex (Nat.cast_nonneg n), isFinite_ofIndex, decide_eq_decide, ← not_le, hlimit,
    not_le]

/-- What the digits of an integer stand for. Wide integers are kept as floats. -/
def Constant.ofNat (n : Nat) : Constant :=
  if n < Numeral.intLimit then .int (.ofNat n) else .float (.ofNat n)

theorem Constant.number?_ofNat (n : Nat) : (Constant.ofNat n).number? = some (.ofNat n) := by
  unfold Constant.ofNat
  split
  · rename_i hsmall
    rw [number?, Int64.toInt_ofNat_of_lt hsmall, Binary64.ofInt_natCast]
  · rfl

namespace Numeral

variable {n : Numeral}

theorem toToken_of_not_whole (h : n.isWhole = false) (offset : Nat) :
    n.toToken offset false = .ok (.float n.toDecimal.toBinary64) := by
  simp [toToken, h]

theorem toDecimal_of_whole (h : n.isWhole) : n.toDecimal = ⟨n.toDecimal.coefficient, 0⟩ := by
  obtain ⟨whole, fraction, exponent⟩ := n
  rw [isWhole, Bool.and_eq_true, Option.isNone_iff_eq_none, Option.isNone_iff_eq_none] at h
  obtain ⟨rfl, rfl⟩ : fraction = none ∧ exponent = none := h
  rfl

/-- Integers in range are far from the infinity. -/
theorem intLimit_lt_leastInfinite : intLimit < leastInfinite := by decide +kernel

/-- An integer literal is refused exactly if no finite number is nearest to it. -/
theorem toToken_of_whole (h : n.isWhole) (hzeros : n.hasLeadingZeros = false) (offset : Nat) :
    n.toToken offset false =
      if leastInfinite ≤ n.toDecimal.coefficient then .error .intTooLarge
      else .ok (Constant.ofNat n.toDecimal.coefficient).token := by
  have hfloat : n.toDecimal.toBinary64 = .ofNat n.toDecimal.coefficient := by
    rw [toDecimal_of_whole h, Decimal.toBinary64_natCast]
  have hlimit := intLimit_lt_leastInfinite
  unfold toToken
  dsimp only
  rw [hfloat, isFinite_ofNat, h, hzeros]
  generalize n.toDecimal.coefficient = coefficient
  simp only [Bool.not_true, Bool.false_eq_true, if_false, decide_eq_true_eq]
  by_cases hsmall : coefficient < intLimit
  · rw [if_pos hsmall, if_neg (by omega), Constant.ofNat, if_pos hsmall]
    rfl
  · rw [if_neg hsmall, Constant.ofNat, if_neg hsmall]
    by_cases hfinite : coefficient < leastInfinite
    · rw [if_pos hfinite, if_neg (Nat.not_le_of_lt hfinite)]
      rfl
    · rw [if_neg hfinite, if_pos (Nat.le_of_not_lt hfinite)]

theorem toToken_toDigits (n : Nat) (offset : Nat) :
    toToken offset ⟨Nat.toDigits 10 n, none, none⟩ false =
      if leastInfinite ≤ n then .error .intTooLarge else .ok (Constant.ofNat n).token := by
  have htoken := toToken_of_whole rfl (Token.hasLeadingZeros_toDigits n) offset
  rwa [Token.toDecimal_toDigits] at htoken

end Numeral

namespace Token

variable {w text rest : List Char} {n : Numeral} {t : Token}

theorem scan_of_startsNumber (hstart : startsNumber text) (offset : Nat) :
    scan offset text = scanNumber offset text := by
  cases text with
  | nil => cases hstart
  | cons c text => rw [scan, if_pos hstart]

theorem scanNumber_of_scan (hscan : Numeral.scan text = (n, rest)) (hrest : Clear isNameChar rest)
    (offset : Nat) : scanNumber offset text = (n.toToken offset false).map fun t => (t, rest) := by
  have hname : rest.head?.any isNameChar = false := by
    cases rest with
    | nil => rfl
    | cons c rest => exact clear_cons.1 hrest
  unfold scanNumber
  rw [hscan]
  dsimp only
  rw [scanImaginaryMark_of_clear hrest]
  dsimp only
  rw [if_neg (by rw [hname]; decide)]

theorem spells_of_numeral (hstart : startsNumber w) (hscan : Numeral.scan w = (n, []))
    (htoken : n.toToken 0 false = .ok t) : Spells w t := by
  apply spells_of_scanNumber hstart
  rw [scanNumber_of_scan hscan clear_nil, htoken]
  rfl

theorem spells_of_not_whole (hstart : startsNumber w)
    (hscan : Numeral.scan w = (n, [])) (h : n.isWhole = false) :
    Spells w (.float n.toDecimal.toBinary64) :=
  spells_of_numeral hstart hscan (Numeral.toToken_of_not_whole h 0)

end Token

/-- Digits on at least one side of a point. Zeros in front do no harm here. -/
structure PointLiteral where
  whole : List Char
  fraction : List Char
  isDigit_whole : ∀ c ∈ whole, c.isDigit
  isDigit_fraction : ∀ c ∈ fraction, c.isDigit
  nonempty : whole ≠ [] ∨ fraction ≠ []

def PointLiteral.chars (literal : PointLiteral) : List Char :=
  literal.whole ++ '.' :: literal.fraction

def PointLiteral.decimal (literal : PointLiteral) : Decimal :=
  ⟨Nat.ofDigitChars 10 (literal.whole ++ literal.fraction) 0, -literal.fraction.length⟩

namespace PointLiteral

variable (literal : PointLiteral)

theorem isDigit_or_point : ∀ c ∈ literal.chars, c.isDigit ∨ c = '.' := by
  intro c hc
  rw [chars, List.mem_append, List.mem_cons] at hc
  rcases hc with hc | hpoint | hc
  · exact .inl (literal.isDigit_whole c hc)
  · exact .inr hpoint
  · exact .inl (literal.isDigit_fraction c hc)

theorem startsNumber (rest : List Char) : Token.startsNumber (literal.chars ++ rest) := by
  rw [chars, List.append_assoc]
  by_cases hwhole : literal.whole = []
  · obtain ⟨c, ds, hds⟩ :=
      List.exists_cons_of_ne_nil (literal.nonempty.resolve_left (not_not_intro hwhole))
    have hc := literal.isDigit_fraction c (hds ▸ List.mem_cons_self)
    rw [hwhole, hds]
    exact hc
  · exact Token.startsNumber_of_digits literal.isDigit_whole hwhole _

theorem scan_chars :
    Numeral.scan literal.chars = (⟨literal.whole, some literal.fraction, none⟩, []) := by
  have hscan := Numeral.scan_point literal.isDigit_whole literal.isDigit_fraction clear_nil
  rwa [List.append_nil] at hscan

theorem toDecimal_eq :
    Numeral.toDecimal ⟨literal.whole, some literal.fraction, none⟩ = literal.decimal := by
  simp [Numeral.toDecimal, decimal]

theorem spells : Token.Spells literal.chars (.float literal.decimal.toBinary64) := by
  have hstart := literal.startsNumber []
  rw [List.append_nil] at hstart
  rw [← toDecimal_eq]
  exact Token.spells_of_not_whole hstart literal.scan_chars rfl

end PointLiteral

end Abacus
