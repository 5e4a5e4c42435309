import Abacus.Proofs.Decimal.Reading
import Abacus.Proofs.Token.Written

namespace Abacus

open Text

/-- A decimal that is read as the number, if any is. -/
def Binary64.decimal : Binary64 → Decimal
  | finite _ index => if index.val = 0 then ⟨0, 0⟩ else .shortest index
  | infinity _ => ⟨1, 309⟩
  | nan => ⟨0, 0⟩

def Decimal.exponentSpelling (exponent : Int) : List Char :=
  if exponent < 0 then '-' :: Nat.toDigits 10 exponent.natAbs else Nat.toDigits 10 exponent.natAbs

def Decimal.spelling (d : Decimal) : List Char :=
  Nat.toDigits 10 d.coefficient ++ 'e' :: exponentSpelling d.exponent

namespace Token

/-- A character between double quotes. -/
def escape (c : Char) : List Char :=
  if c = '"' ∨ c = '\\' then ['\\', c] else if c = '\n' then ['\\', 'n'] else [c]

def spelling : Token → List Char
  | int n => Nat.toDigits 10 n.toNatClampNeg
  | float x => x.decimal.spelling
  | imaginary x => x.decimal.spelling ++ ['j']
  | str text => '"' :: (text.toList.flatMap escape ++ ['"'])
  | name text => text.toList
  | keyword word => word.text.toList
  | symbol sign => sign.spelling
  | opening bracket => [bracket.opener]
  | closing bracket => [bracket.closer]
  | eof => []

/-- The tokens that texts have. No sign is part of a number. -/
def Readable : Token → Prop
  | int n => 0 ≤ n
  | float x | imaginary x => ∃ d : Decimal, x = d.toBinary64
  | name text =>
    ∃ c v, text.toList = c :: v ∧ isNameStart c ∧ (∀ d ∈ v, isNameChar d) ∧
      Keyword.ofText? text = none
  | eof => False
  | _ => True

theorem spells_of_scan {c : Char} {w : List Char} {t : Token}
    (h : scan 0 (c :: w) = .ok (t, [])) : Spells (c :: w) t := by
  obtain ⟨v, hspells, hv⟩ := exists_spells h
  rw [List.append_nil] at hv
  rw [hv]
  exact hspells

theorem readable_of_toToken {n : Numeral} {offset : Nat} {isImaginary : Bool} {t : Token}
    (h : n.toToken offset isImaginary = .ok t) : t.Readable := by
  rcases toToken_cases h with rfl | rfl | ⟨rfl, hlimit⟩
  · exact ⟨_, rfl⟩
  · exact ⟨_, rfl⟩
  · exact Int64.zero_le_ofNat_of_lt hlimit

theorem readable_ofName {c : Char} {v : List Char} (hstart : isNameStart c)
    (hv : ∀ d ∈ v, isNameChar d) : (ofName (.ofList (c :: v))).Readable := by
  unfold ofName
  split
  · trivial
  · exact ⟨c, v, String.toList_ofList, hstart, hv, ‹_›⟩

/-- Whatever is read from a spelling is readable. -/
theorem Spells.readable {w : List Char} {t : Token} (h : Spells w t) : t.Readable := by
  cases w with
  | nil => exact absurd rfl h.ne_nil
  | cons c v =>
    have hscan := h.scan 0 [] clear_nil
    rw [List.append_nil] at hscan
    rcases scan_cases hscan with ⟨_, hnumber⟩ | ⟨hname, rfl, _⟩ | ⟨_, _, _, rfl⟩ |
      ⟨hbracket, _⟩ | ⟨_, _, rfl⟩
    · obtain ⟨_, _, htoken⟩ := scanNumber_eq_ok_iff.1 hnumber
      exact readable_of_toToken htoken
    · rw [List.takeWhile_cons_of_pos (isNameChar_of_isNameStart hname)]
      exact readable_ofName hname (List.all_eq_true.1 List.all_takeWhile)
    · trivial
    · unfold Bracket.ofChar? at hbracket
      split at hbracket <;> cases hbracket <;> trivial
    · trivial

theorem scanString_escape (text rest : List Char) :
    scanString '"' (text.flatMap escape ++ '"' :: rest) = some (text, rest) := by
  induction text with
  | nil => rfl
  | cons c text ih =>
    rw [List.flatMap_cons, List.append_assoc]
    by_cases hescaped : c = '"' ∨ c = '\\'
    · rw [escape, if_pos hescaped]
      rcases hescaped with rfl | rfl <;> simp [scanString, ih, unescape]
    rw [escape, if_neg hescaped]
    rw [not_or] at hescaped
    by_cases hnewline : c = '\n'
    · subst hnewline
      simp [scanString, ih, unescape]
    · rw [if_neg hnewline, List.singleton_append, scanString_cons '"' hescaped.2,
        if_neg hescaped.1, if_neg hnewline, ih]
      rfl

theorem spells_keyword (word : Keyword) : Spells word.text.toList (keyword word) := by
  cases word <;> exact spells_ofName rfl (List.all_eq_true.1 rfl)

theorem startsNumber_toDigits (n : Nat) (rest : List Char) :
    startsNumber (Nat.toDigits 10 n ++ rest) :=
  startsNumber_of_digits isDigit_of_mem_toDigits Nat.toDigits_ne_nil rest

theorem hasLeadingZeros_toDigits (n : Nat) :
    Numeral.hasLeadingZeros ⟨Nat.toDigits 10 n, none, none⟩ = false := by
  by_cases h : n = 0
  · subst h
    rfl
  · unfold Numeral.hasLeadingZeros
    rw [beq_false_of_ne (head?_toDigits_ne h), Bool.and_false, Bool.false_and]

/-- A word that is one number is read as that number. -/
theorem spells_of_scanNumber {w : List Char} {t : Token} (hstart : startsNumber w)
    (h : scanNumber 0 w = .ok (t, [])) : Spells w t := by
  cases w with
  | nil => cases hstart
  | cons c w =>
    apply spells_of_scan
    simp only [scan, hstart, if_true]
    exact h

theorem scan_toDigits (n : Nat) {rest : List Char} (hrest : Clear Numeral.resumes rest) :
    Numeral.scan (Nat.toDigits 10 n ++ rest) = (⟨Nat.toDigits 10 n, none, none⟩, rest) := by
  have hdigits : Clear (fun c => c.isDigit || c == '.') rest := hrest.mono fun c hc => by
    simp [Numeral.resumes, hc]
  have hmark : Clear (fun c => c == 'e' || c == 'E') rest := hrest.mono fun c hc => by
    rw [Numeral.resumes, Bool.or_assoc, hc, Bool.or_true]
  rw [Numeral.scan_digits isDigit_of_mem_toDigits hdigits, Numeral.scanExponent_of_clear hmark]

theorem toDecimal_toDigits (n : Nat) :
    Numeral.toDecimal ⟨Nat.toDigits 10 n, none, none⟩ = ⟨n, 0⟩ := by
  simp [Numeral.toDecimal, Nat.ofDigitChars_ten_toDigits]

theorem spells_ofNat {n : Nat} (h : n < Numeral.intLimit) :
    Spells (Nat.toDigits 10 n) (int (.ofNat n)) := by
  have hstart := startsNumber_toDigits n []
  have hscan := scan_toDigits n clear_nil
  rw [List.append_nil] at hstart hscan
  apply spells_of_scanNumber hstart
  rw [scanNumber_eq_ok_iff, hscan]
  refine ⟨rfl, clear_nil, ?_⟩
  unfold Numeral.toToken
  rw [hasLeadingZeros_toDigits, toDecimal_toDigits]
  simp [scanImaginaryMark, Numeral.isWhole, h]

theorem spells_int {n : Int64} (h : 0 ≤ n) : Spells (Nat.toDigits 10 n.toNatClampNeg) (int n) := by
  have hspells := spells_ofNat n.toNatClampNeg_lt
  rwa [n.ofNat_toNatClampNeg h] at hspells

theorem scanExponent_exponentSpelling (exponent : Int) {rest : List Char}
    (hrest : Clear Char.isDigit rest) :
    Numeral.scanExponent ('e' :: (Decimal.exponentSpelling exponent ++ rest)) =
      (some exponent, rest) := by
  have hne : Nat.toDigits 10 exponent.natAbs ≠ [] := Nat.toDigits_ne_nil
  unfold Decimal.exponentSpelling
  split
  · rename_i hnegative
    have hscan := Numeral.scanExponent_mark (.inl rfl) ['-'] (Nat.toDigits 10 exponent.natAbs) rest
      rfl hne isDigit_of_mem_toDigits hrest
    rw [Nat.ofDigitChars_ten_toDigits, if_pos rfl] at hscan
    rw [show exponent = -(exponent.natAbs : Int) by omega]
    rwa [Int.natAbs_neg, Int.natAbs_natCast]
  · rename_i hnonnegative
    have hscan := Numeral.scanExponent_mark (.inl rfl) [] (Nat.toDigits 10 exponent.natAbs) rest
      (Numeral.scanSign_of_clear (Numeral.clear_sign_of_digits isDigit_of_mem_toDigits hne)) hne
      isDigit_of_mem_toDigits hrest
    rw [Nat.ofDigitChars_ten_toDigits, if_neg (by decide)] at hscan
    rw [show exponent = (exponent.natAbs : Int) by omega]
    exact hscan

theorem scan_decimal (d : Decimal) {rest : List Char} (hrest : Clear Char.isDigit rest) :
    Numeral.scan (d.spelling ++ rest) =
      (⟨Nat.toDigits 10 d.coefficient, none, some d.exponent⟩, rest) := by
  unfold Decimal.spelling
  rw [List.append_assoc, List.cons_append,
    Numeral.scan_digits isDigit_of_mem_toDigits (clear_cons.2 rfl),
    scanExponent_exponentSpelling d.exponent hrest]

theorem toDecimal_decimal (d : Decimal) :
    Numeral.toDecimal ⟨Nat.toDigits 10 d.coefficient, none, some d.exponent⟩ = d := by
  unfold Numeral.toDecimal
  simp [Nat.ofDigitChars_ten_toDigits]

theorem spells_float (d : Decimal) : Spells d.spelling (float d.toBinary64) := by
  have hscan := scan_decimal d (clear_nil (p := Char.isDigit))
  rw [List.append_nil] at hscan
  have hstart : startsNumber d.spelling := startsNumber_toDigits _ _
  apply spells_of_scanNumber hstart
  rw [scanNumber_eq_ok_iff, hscan]
  refine ⟨rfl, clear_nil, ?_⟩
  unfold Numeral.toToken
  rw [toDecimal_decimal]
  simp [scanImaginaryMark, Numeral.isWhole]

theorem spells_imaginary (d : Decimal) : Spells (d.spelling ++ ['j']) (imaginary d.toBinary64) := by
  have hscan := scan_decimal d (clear_cons.2 rfl : Clear Char.isDigit ['j'])
  have hstart : startsNumber (d.spelling ++ ['j']) := by
    unfold Decimal.spelling
    rw [List.append_assoc]
    exact startsNumber_toDigits _ _
  apply spells_of_scanNumber hstart
  rw [scanNumber_eq_ok_iff, hscan]
  refine ⟨rfl, clear_nil, ?_⟩
  unfold Numeral.toToken
  rw [toDecimal_decimal]
  simp [scanImaginaryMark]

/-- What a decimal is read as has a decimal that is read as it. -/
theorem toBinary64_decimal (d : Decimal) : d.toBinary64.decimal.toBinary64 = d.toBinary64 := by
  have hinfinity : (Decimal.mk 1 309).toBinary64 = .infinity false := rfl
  rcases d.toBinary64_cases with hread | ⟨index, hread⟩
  · rw [hread]
    exact hinfinity
  · rw [hread]
    dsimp only [Binary64.decimal]
    split
    · rename_i hzero
      obtain rfl : index = ⟨0, by decide⟩ := Fin.ext hzero
      rfl
    · exact Decimal.toBinary64_of_nearest (Decimal.nearestIndex_shortest index)

/-- Every readable token is read from its spelling. -/
theorem spells_spelling {t : Token} (h : t.Readable) : Spells t.spelling t := by
  cases t with
  | int n => exact spells_int h
  | float x =>
    obtain ⟨d, rfl⟩ := h
    have hspells := spells_float d.toBinary64.decimal
    rwa [toBinary64_decimal] at hspells
  | imaginary x =>
    obtain ⟨d, rfl⟩ := h
    have hspells := spells_imaginary d.toBinary64.decimal
    rwa [toBinary64_decimal] at hspells
  | str text =>
    have hscan (rest : List Char) :
        scanString '"' ((text.toList.flatMap escape ++ ['"']) ++ rest) = some (text.toList, rest) := by
      rw [List.append_assoc]
      exact scanString_escape text.toList rest
    have hspells := spells_str (.inl rfl) hscan
    rwa [String.ofList_toList] at hspells
  | name text =>
    obtain ⟨c, v, htext, hstart, hv, hkeyword⟩ := h
    have hspells := spells_ofName hstart hv
    rw [← htext, String.ofList_toList] at hspells
    unfold ofName at hspells
    rwa [hkeyword] at hspells
  | keyword word => exact spells_keyword word
  | symbol sign => exact spells_symbol sign
  | opening bracket => exact spells_opening bracket
  | closing bracket => exact spells_closing bracket
  | eof => cases h

end Token

end Abacus
