namespace Abacus.Text

/-- The text behind a lead, if it starts with that lead. -/
def after? : (lead text : List Char) → Option (List Char)
  | [], text => some text
  | _ :: _, [] => none
  | l :: lead, c :: text => if l = c then after? lead text else none

theorem after?_eq_some_iff {lead text rest : List Char} :
    after? lead text = some rest ↔ text = lead ++ rest := by
  fun_induction after? lead text with
  | case1 text => simp [eq_comm]
  | case2 => simp
  | case3 lead c text ih => simpa using ih
  | case4 l lead c text h => simp [Ne.symm h]

end Abacus.Text
