import Abacus.Proofs.Token.Numeral

namespace Abacus.Text

variable {left core right : List Char} {c : Char}

/-- No visible character of ASCII is white space. -/
theorem isBlank_of_visible (hlow : 33 ≤ c.toNat) (hhigh : c.toNat ≤ 126) : isBlank c = false := by
  simp [isBlank, inRanges, blankRanges]
  omega

theorem isBlank_of_isDigit (h : c.isDigit) : isBlank c = false := by
  have hrange : 48 ≤ c.toNat ∧ c.toNat ≤ 57 := Char.isDigit_iff_toNat.1 h
  exact isBlank_of_visible (by omega) (by omega)

/-- What neither starts nor ends with white space is left as it is. -/
theorem trim_padded (hleft : ∀ c ∈ left, isBlank c) (hright : ∀ c ∈ right, isBlank c) (hne : core ≠ [])
    (hfirst : Clear isBlank core) (hlast : Clear isBlank core.reverse) :
    trim (left ++ core ++ right) = core := by
  have htrimLeft : trimLeft (left ++ core ++ right) = core ++ right := by
    rw [trimLeft, List.append_assoc, dropWhile_append hleft (hfirst.append_of_ne_nil hne)]
  have hbackwards : ∀ c ∈ right.reverse, isBlank c :=
    fun c hc => hright c (List.mem_reverse.1 hc)
  rw [trim, htrimLeft, trimRight, List.reverse_append, dropWhile_append hbackwards hlast,
    List.reverse_reverse]

theorem trim_of_forall (hne : core ≠ []) (hcore : ∀ c ∈ core, isBlank c = false) : trim core = core := by
  have hbackwards : ∀ c ∈ core.reverse, isBlank c = false := fun c hc => hcore c (List.mem_reverse.1 hc)
  have htrim : trim ([] ++ core ++ []) = core :=
    trim_padded (by simp) (by simp) hne (clear_of_forall hcore) (clear_of_forall hbackwards)
  simpa using htrim

theorem trim_cons (hc : isBlank c) : trim (c :: core) = trim core := by
  rw [trim, trim, trimLeft, List.dropWhile_cons_of_pos hc, trimLeft]

end Abacus.Text
