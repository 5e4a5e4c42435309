import Abacus.Address.Reader
import Abacus.Address.Writer
import Abacus.Proofs.Token.Numeral

namespace Abacus.Address

open Text IPv6

variable {limit n : Nat} {text rest : List Char}

theorem readDecimal_toDigits (hn : n < limit) (hrest : Clear Char.isDigit rest) :
    readDecimal limit (Nat.toDigits 10 n ++ rest) = some (n, rest) := by
  have hread : ¬((Nat.toDigits 10 n).isEmpty ∨ limit ≤ n) := by
    rw [List.isEmpty_iff, not_or, Nat.not_le]
    exact ⟨Nat.toDigits_ne_nil, hn⟩
  simp only [readDecimal, takeWhile_append isDigit_of_mem_toDigits hrest,
    dropWhile_append isDigit_of_mem_toDigits hrest, Nat.ofDigitChars_ten_toDigits, if_neg hread]

/-- No number but zero is written with a zero in front. -/
theorem readOctet_toDigits (byte : UInt8) (hrest : Clear Char.isDigit rest) :
    readOctet (Nat.toDigits 10 byte.toNat ++ rest) = some (byte, rest) := by
  have hplain : ¬((Nat.toDigits 10 byte.toNat ++ rest).head? = some '0' ∧
      1 < (Nat.toDigits 10 byte.toNat).length) := by
    rintro ⟨hzero, hlong⟩
    rw [List.head?_append, Option.or_of_isSome (List.isSome_head?.2 Nat.toDigits_ne_nil)] at hzero
    have hbyte : byte.toNat = 0 := Decidable.not_not.1 fun hne => head?_toDigits_ne hne hzero
    rw [hbyte, Nat.toDigits_zero] at hlong
    exact absurd hlong (by decide)
  unfold readOctet
  rw [takeWhile_append isDigit_of_mem_toDigits hrest, if_neg hplain,
    readDecimal_toDigits byte.toNat_lt hrest, Option.map_some]
  exact congrArg (fun value => some (value, rest)) UInt8.ofNat_toNat

theorem eq_dropWhile_of_readOctet {byte : UInt8} (h : readOctet text = some (byte, rest)) :
    rest = text.dropWhile Char.isDigit := by
  simp only [readOctet, readDecimal] at h
  split at h
  · cases h
  · split at h
    · cases h
    · exact (Prod.mk.inj (Option.some.inj h)).2.symm

theorem readPort_toDigits (port : UInt16) :
    readPort (':' :: Nat.toDigits 10 port.toNat) = some (port, []) := by
  have hport : readDecimal 65536 (Nat.toDigits 10 port.toNat ++ []) = some (port.toNat, []) :=
    readDecimal_toDigits port.toNat_lt clear_nil
  rw [List.append_nil] at hport
  simp [readPort, skip?, hport]

/-- A scope of zero is left out, and a scope that is left out is zero. -/
theorem readScope_written (scope : UInt32) (rest : List Char) :
    readScope ((if scope = 0 then [] else '%' :: Nat.toDigits 10 scope.toNat) ++ ']' :: rest) =
      (scope, ']' :: rest) := by
  split
  · next hscope => simp [readScope, skip?, hscope]
  · have hbehind : Clear Char.isDigit (']' :: rest) := clear_cons.2 rfl
    have hread := readDecimal_toDigits scope.toNat_lt hbehind
    simp [readScope, skip?, hread]

theorem hexDigit?_digitChar (h : n < 16) : hexDigit? n.digitChar = some n := by
  decide +revert

/-- The hexadecimal digits of a number make it up again. -/
theorem exists_hexDigits (n : Nat) :
    ∃ digits : List Nat, (Nat.toDigits 16 n).map hexDigit? = digits.map some ∧
      digits.foldl (fun value digit => 16 * value + digit) 0 = n := by
  induction n using Nat.strongRecOn with
  | ind n ih =>
    by_cases hsmall : n < 16
    · refine ⟨[n], ?_, by simp⟩
      rw [Nat.toDigits_of_lt_base hsmall, List.map_singleton, hexDigit?_digitChar hsmall,
        List.map_singleton]
    · obtain ⟨digits, hdigits, hvalue⟩ := ih (n / 16) (by omega)
      refine ⟨digits ++ [n % 16], ?_, ?_⟩
      · rw [Nat.toDigits_of_base_le (by decide) (by omega), List.map_append, List.map_append, hdigits,
          List.map_singleton, hexDigit?_digitChar (Nat.mod_lt n (by decide)), List.map_singleton]
      · rw [List.foldl_append, hvalue, List.foldl_cons, List.foldl_nil, Nat.div_add_mod]

theorem isSome_hexDigit?_of_mem {group : UInt16} : ∀ c ∈ groupText group, (hexDigit? c).isSome := by
  obtain ⟨digits, hdigits, -⟩ := exists_hexDigits group.toNat
  intro c hc
  have hmem : hexDigit? c ∈ digits.map some := hdigits ▸ List.mem_map_of_mem hc
  obtain ⟨digit, -, hdigit⟩ := List.mem_map.1 hmem
  rw [← hdigit, Option.isSome_some]

theorem readGroup_groupText (group : UInt16) (hrest : Clear (fun c => (hexDigit? c).isSome) rest) :
    readGroup (groupText group ++ rest) = some (group, rest) := by
  obtain ⟨digits, hdigits, hvalue⟩ := exists_hexDigits group.toNat
  have hread : (groupText group).filterMap hexDigit? = digits := by
    have hid := congrArg (List.filterMap id) hdigits
    simpa [List.filterMap_map, groupText] using hid
  have hlength : digits.length = (groupText group).length := by
    simpa [groupText] using (congrArg List.length hdigits).symm
  have hshort : (groupText group).length ≤ 4 :=
    (Nat.length_toDigits_le_iff (by decide) (by decide)).2 group.toNat_lt
  have hne : digits ≠ [] := by
    rw [← List.length_pos_iff, hlength]
    exact Nat.length_toDigits_pos
  have hgood : ¬(digits.isEmpty ∨ 4 < digits.length) := by
    rw [List.isEmpty_iff, not_or, hlength, Nat.not_lt]
    exact ⟨hne, hshort⟩
  simp only [readGroup, takeWhile_append isSome_hexDigit?_of_mem hrest,
    dropWhile_append isSome_hexDigit?_of_mem hrest, hread, if_neg hgood, hvalue, UInt16.ofNat_toNat]

theorem readGroup_of_clear (h : Clear (fun c => (hexDigit? c).isSome) text) : readGroup text = none := by
  unfold readGroup
  rw [takeWhile_of_clear h]
  rfl

end Abacus.Address
