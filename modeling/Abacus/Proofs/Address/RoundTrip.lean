import Abacus.Proofs.Address.Hosts
import Abacus.Proofs.Text.Trim

namespace Abacus.Address

open Text

variable {left right : List Char}

theorem readV4_chars (host : IPv4) (port : UInt16) :
    readV4 (v4 host port).chars = some (v4 host port, []) := by
  have hhost := readIPv4_text host (clear_cons.2 rfl : Clear Char.isDigit (':' :: Nat.toDigits 10 port.toNat))
  simp [readV4, chars, hhost, readPort_toDigits]

theorem readV6_chars (host : IPv6) (scope : UInt32) (port : UInt16) :
    readV6 (v6 host scope port).chars = some (v6 host scope port, []) := by
  have hend : Clear (fun c => goesOn c || c == ':')
      ((if scope = 0 then [] else '%' :: Nat.toDigits 10 scope.toNat) ++
        ']' :: ':' :: Nat.toDigits 10 port.toNat) := by
    split <;> exact clear_cons.2 (by decide)
  have hchars : (v6 host scope port).chars = '[' :: (host.text ++
      ((if scope = 0 then [] else '%' :: Nat.toDigits 10 scope.toNat) ++
        ']' :: ':' :: Nat.toDigits 10 port.toNat)) := by
    rw [chars, List.cons_append, List.cons_append, List.append_assoc]
  rw [hchars]
  simp [readV6, readIPv6_text host hend, readScope_written, readPort_toDigits]

/-- No long address starts like a short one. -/
theorem readV4_bracket (text : List Char) : readV4 ('[' :: text) = none := by
  have hhost : readIPv4 ('[' :: text) = none := readIPv4_of_clear (clear_cons.2 rfl)
  simp [readV4, hhost]

/-- What an address is written as spells that address and no other. -/
theorem ofText?_chars (address : Address) : ofText? address.chars = some address := by
  cases address with
  | v4 host port => simp [ofText?, readV4_chars]
  | v6 host scope port =>
    have hshort : readV4 (v6 host scope port).chars = none := readV4_bracket _
    simp [ofText?, hshort, readV6_chars]

theorem isBlank_of_mem_toDigits {n : Nat} {c : Char} (h : c ∈ Nat.toDigits 10 n) : isBlank c = false :=
  isBlank_of_isDigit (isDigit_of_mem_toDigits c h)

theorem clear_chars (address : Address) : Clear isBlank address.chars := by
  cases address with
  | v4 host port =>
    simp only [chars, IPv4.text, List.append_assoc]
    exact (clear_of_forall fun _ => isBlank_of_mem_toDigits).append_of_ne_nil Nat.toDigits_ne_nil
  | v6 => exact clear_cons.2 (by decide)

/-- An address ends in its port. -/
theorem exists_port (address : Address) :
    ∃ front, address.chars = front ++ Nat.toDigits 10 address.port.toNat := by
  cases address with
  | v4 host port => exact ⟨host.text ++ [':'], by simp [chars, Address.port]⟩
  | v6 host scope port =>
    exact ⟨'[' :: host.text ++ (if scope = 0 then [] else '%' :: Nat.toDigits 10 scope.toNat) ++ [']', ':'],
      by simp [chars, Address.port]⟩

theorem clear_reverse_chars (address : Address) : Clear isBlank address.chars.reverse := by
  obtain ⟨front, hchars⟩ := address.exists_port
  rw [hchars, List.reverse_append]
  exact (clear_of_forall fun _ hc => isBlank_of_mem_toDigits (List.mem_reverse.1 hc)).append_of_ne_nil
    (mt List.reverse_eq_nil_iff.1 Nat.toDigits_ne_nil)

theorem chars_ne_nil (address : Address) : address.chars ≠ [] := by
  cases address <;> simp [chars]

theorem ofText?_trim_chars (address : Address) (hleft : ∀ c ∈ left, isBlank c)
    (hright : ∀ c ∈ right, isBlank c) : ofText? (trim (left ++ address.chars ++ right)) = some address := by
  rw [trim_padded hleft hright address.chars_ne_nil address.clear_chars address.clear_reverse_chars,
    ofText?_chars]

end Abacus.Address
