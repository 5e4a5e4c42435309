import Abacus.Proofs.Cleaning
import Abacus.Proofs.Formula.Basic
import Abacus.Proofs.Progress

namespace Abacus

open Text Token
open Lexeme (matchBrackets maxOpen)

theorem Sign.inAlphabet_spelling (sign : Sign) : ∀ c ∈ sign.val.token.spelling, inAlphabet c :=
  List.all_eq_true.1 <|
    (by decide : ∀ op ∈ [UnaryOp.pos, .neg], op.token.spelling.all inAlphabet) sign.val sign.property

theorem Operator.inAlphabet_spelling (op : Operator) : ∀ c ∈ op.val.symbol.spelling, inAlphabet c :=
  List.all_eq_true.1 <|
    (by decide : ∀ op ∈ [BinaryOp.add, .sub, .mul, .div, .floorDiv, .pow],
      op.symbol.spelling.all inAlphabet) op.val op.property

theorem Sign.count_spelling (sign : Sign) :
    sign.val.token.spelling.count '(' = 0 ∧ sign.val.token.spelling.count ')' = 0 :=
  (by decide : ∀ op ∈ [UnaryOp.pos, .neg],
    op.token.spelling.count '(' = 0 ∧ op.token.spelling.count ')' = 0) sign.val sign.property

theorem Operator.count_spelling (op : Operator) :
    op.val.symbol.spelling.count '(' = 0 ∧ op.val.symbol.spelling.count ')' = 0 :=
  (by decide : ∀ op ∈ [BinaryOp.add, .sub, .mul, .div, .floorDiv, .pow],
    op.symbol.spelling.count '(' = 0 ∧ op.symbol.spelling.count ')' = 0) op.val op.property

theorem PointLiteral.isPlainNumeric_chars (literal : PointLiteral) :
    ∀ c ∈ literal.chars, isPlainNumeric c :=
  fun c hc => isPlainNumeric_of_isDigit_or_point (literal.isDigit_or_point c hc)

theorem isPlainNumeric_toDigits (n : Nat) : ∀ c ∈ Nat.toDigits 10 n, isPlainNumeric c :=
  fun c hc => isPlainNumeric_of_isDigit_or_point (.inl (isDigit_of_mem_toDigits c hc))

namespace Formula

variable {opened : List Bracket} {rest : List Char}

theorem inAlphabet_chars (f : Formula) : ∀ c ∈ f.chars, inAlphabet c := by
  induction f with
  | integer n => exact fun c hc => inAlphabet_of_isPlainNumeric (isPlainNumeric_toDigits n c hc)
  | point literal =>
    exact fun c hc => inAlphabet_of_isPlainNumeric (literal.isPlainNumeric_chars c hc)
  | signed sign operand ih =>
    intro c hc
    rw [chars, List.mem_cons, List.mem_append, List.mem_append, List.mem_singleton] at hc
    rcases hc with rfl | hsign | hoperand | rfl
    · rfl
    · exact sign.inAlphabet_spelling c hsign
    · exact ih c hoperand
    · rfl
  | binary op left right ihleft ihright =>
    intro c hc
    rw [chars, List.mem_cons, List.mem_append, List.mem_append, List.mem_append,
      List.mem_singleton] at hc
    rcases hc with rfl | hleft | hop | hright | rfl
    · rfl
    · exact ihleft c hleft
    · exact op.inAlphabet_spelling c hop
    · exact ihright c hright
    · rfl

theorem count_chars (f : Formula) : f.chars.count '(' = f.chars.count ')' := by
  induction f with
  | integer n =>
    have hplain := isPlainNumeric_toDigits n
    rw [chars, count_of_isPlainNumeric hplain rfl, count_of_isPlainNumeric hplain rfl]
  | point literal =>
    have hplain := literal.isPlainNumeric_chars
    rw [chars, count_of_isPlainNumeric hplain rfl, count_of_isPlainNumeric hplain rfl]
  | signed sign operand ih =>
    obtain ⟨hopening, hclosing⟩ := sign.count_spelling
    simp [chars, hopening, hclosing, ih]
  | binary op left right ihleft ihright =>
    obtain ⟨hopening, hclosing⟩ := op.count_spelling
    simp [chars, hopening, hclosing, ihleft, ihright]
    omega

/-- What stands behind a formula must not go on with a number at its end. -/
def EndsBefore (rest : List Char) : Prop := Clear (fun c => isNameChar c || c == '.') rest

theorem spells_integer {n : Nat} (h : n < Binary64.leastInfinite) :
    Spells (Nat.toDigits 10 n) (Constant.ofNat n).token := by
  have hstart := startsNumber_toDigits n []
  have hscan := scan_toDigits n clear_nil
  rw [List.append_nil] at hstart hscan
  apply spells_of_numeral hstart hscan
  rw [Numeral.toToken_toDigits, if_neg (Nat.not_le_of_lt h)]

/-- No formula starts as an operator goes on. -/
theorem clear_chars (f : Formula) (rest : List Char) : Clear Symbol.prolongs (f.chars ++ rest) := by
  cases f with
  | integer n => exact Place.clear_prolongs_of_startsNumber (startsNumber_toDigits n rest)
  | point literal => exact Place.clear_prolongs_of_startsNumber (literal.startsNumber rest)
  | signed | binary => exact clear_cons.2 rfl

theorem takes_sign (sign : Sign) :
    Takes opened (sign.val.token.spelling ++ rest) [sign.val.token] opened rest := by
  obtain ⟨op, hop⟩ := sign
  cases op with
  | pos => exact Takes.token (spells_symbol .plus) (fun _ _ => rfl) rfl
  | neg => exact Takes.token (spells_symbol .minus) (fun _ _ => rfl) rfl
  | invert | not => exact absurd hop (by decide)

theorem prolongs_of_continues (op : Operator) {c : Char} (h : op.val.symbol.continues c) :
    Symbol.prolongs c := by
  obtain ⟨op, hop⟩ := op
  cases op with
  | mul | div =>
    rw [beq_iff_eq.1 h]
    rfl
  | add | sub | floorDiv | pow => cases h
  | _ => exact absurd hop (by decide)

theorem takes_operator (op : Operator) (f : Formula) :
    Takes opened (op.val.symbol.spelling ++ (f.chars ++ rest)) [.symbol op.val.symbol] opened
      (f.chars ++ rest) :=
  Takes.symbol ((f.clear_chars rest).mono fun _ => prolongs_of_continues op)

theorem endsBefore_operator (op : Operator) (rest : List Char) :
    EndsBefore (op.val.symbol.spelling ++ rest) := by
  obtain ⟨op, hop⟩ := op
  cases op with
  | add | sub | mul | div | floorDiv | pow => exact clear_cons.2 rfl
  | _ => exact absurd hop (by decide)

/-- The parenthesis and the sign before an operand. -/
theorem takes_signed (sign : Sign) (operand : Formula) (hroom : opened.length < maxOpen) :
    Takes opened ((signed sign operand).chars ++ rest) [.opening .round, sign.val.token]
      (.round :: opened) (operand.chars ++ ')' :: rest) := by
  have htext : (signed sign operand).chars ++ rest =
      '(' :: (sign.val.token.spelling ++ (operand.chars ++ ')' :: rest)) := by simp [chars]
  rw [htext]
  exact (Takes.opening hroom).append (takes_sign sign)

/-- The parenthesis before the left operand. -/
theorem takes_binary (op : Operator) (left right : Formula) (hroom : opened.length < maxOpen) :
    Takes opened ((binary op left right).chars ++ rest) [.opening .round] (.round :: opened)
      (left.chars ++ (op.val.symbol.spelling ++ (right.chars ++ ')' :: rest))) := by
  have htext : (binary op left right).chars ++ rest =
      '(' :: (left.chars ++ (op.val.symbol.spelling ++ (right.chars ++ ')' :: rest))) := by
    simp [chars]
  rw [htext]
  exact Takes.opening hroom

theorem endsBefore_closing (rest : List Char) : EndsBefore (')' :: rest) := clear_cons.2 rfl

/-- Inside the parentheses of an operator there is room for its operands. -/
theorem inner_room {inner levels : Nat} (hroom : opened.length + (levels + 1) ≤ maxOpen)
    (hinner : inner ≤ levels) : (Bracket.round :: opened).length + inner ≤ maxOpen := by
  rw [List.length_cons]
  omega

/-- A formula is read as its tokens, whatever comes behind it, if there is room for its parentheses. -/
theorem takes {f : Formula} (hrange : f.exceedsRange = false) (hrest : EndsBefore rest)
    (hroom : opened.length + f.levels ≤ maxOpen) :
    Takes opened (f.chars ++ rest) f.tokens opened rest := by
  induction f generalizing opened rest with
  | integer n =>
    have hfinite : n < Binary64.leastInfinite := Nat.lt_of_not_le (of_decide_eq_false hrange)
    have hcontinues : (Constant.ofNat n).token.continues = fun c => isNameChar c || c == '.' := by
      unfold Constant.ofNat
      split <;> rfl
    refine Takes.token (spells_integer hfinite) ?_ ?_
    · rw [hcontinues]
      exact hrest
    · unfold Constant.ofNat
      split <;> rfl
  | point literal => exact Takes.token literal.spells hrest rfl
  | signed sign operand ih =>
    rw [levels] at hroom
    have hoperand := ih hrange (endsBefore_closing rest) (inner_room hroom (Nat.le_refl _))
    exact ((takes_signed sign operand (by omega)).append hoperand).append .closing
  | binary op left right ihleft ihright =>
    rw [levels] at hroom
    obtain ⟨hleftRange, hrightRange⟩ := Bool.or_eq_false_iff.1 hrange
    have hleft := ihleft hleftRange (endsBefore_operator op (right.chars ++ ')' :: rest))
      (inner_room hroom (Nat.le_max_left _ _))
    have hright := ihright hrightRange (endsBefore_closing rest)
      (inner_room hroom (Nat.le_max_right _ _))
    have hall := (((takes_binary op left right (by omega)).append hleft).append
      ((takes_operator op right).append hright)).append .closing
    simpa [tokens] using hall

/-- A formula with an integer past the finite numbers is refused for the first such integer. -/
theorem refuses {f : Formula} (hrange : f.exceedsRange) (hrest : EndsBefore rest)
    (hroom : opened.length + f.levels ≤ maxOpen) :
    Refuses opened (f.chars ++ rest) .intTooLarge := by
  induction f generalizing opened rest with
  | integer n =>
    have hscan := scan_toDigits n (hrest.mono fun _ => continues_of_resumes)
    have hname : Clear isNameChar rest := hrest.mono fun c hc => by rw [hc, Bool.true_or]
    apply refuses_numeral (startsNumber_toDigits n rest) hscan hname
    intro offset
    rw [Numeral.toToken_toDigits, if_pos (of_decide_eq_true hrange)]
  | point => cases hrange
  | signed sign operand ih =>
    rw [levels] at hroom
    have hoperand := ih hrange (endsBefore_closing rest) (inner_room hroom (Nat.le_refl _))
    exact (takes_signed sign operand (by omega)).refuses hoperand
  | binary op left right ihleft ihright =>
    rw [levels] at hroom
    have hends := endsBefore_operator op (right.chars ++ ')' :: rest)
    have hleft := inner_room hroom (Nat.le_max_left left.levels right.levels)
    apply (takes_binary op left right (by omega)).refuses
    cases hleftRange : left.exceedsRange with
    | true => exact ihleft hleftRange hends hleft
    | false =>
      have hrightRange : right.exceedsRange := by
        rwa [exceedsRange, hleftRange, Bool.false_or] at hrange
      apply (takes hleftRange hends hleft).refuses
      apply (takes_operator op right).refuses
      exact ihright hrightRange (endsBefore_closing rest) (inner_room hroom (Nat.le_max_right _ _))

theorem parse_chars {f : Formula} (hrange : f.exceedsRange = false) (hlevels : f.levels ≤ maxOpen) :
    Expr.parse (.ofList f.chars) = .ok f.tree := by
  have htakes : Takes [] (f.chars ++ []) f.tokens [] [] :=
    takes hrange clear_nil (by rwa [List.length_nil, Nat.zero_add])
  rw [List.append_nil, ← String.toList_ofList (l := f.chars)] at htakes
  refine parse_of_takes htakes f.derives.sentence ?_ ?_
  · exact Nat.le_trans (Nat.mul_le_mul_left 2 hlevels) (by decide)
  · rw [height_tree]
    exact Nat.le_trans (Nat.succ_le_succ hlevels) (by decide)

/-- What is computed from a formula written out. -/
theorem compute_chars {f : Formula} (hlevels : f.levels ≤ maxOpen) :
    compute (.ofList f.chars) =
      if f.exceedsRange then .error (.evaluation .intTooLarge) else f.tree.value := by
  cases hrange : f.exceedsRange with
  | true =>
    have hrefuses : Refuses [] (f.chars ++ []) .intTooLarge :=
      refuses hrange clear_nil (by rwa [List.length_nil, Nat.zero_add])
    rw [List.append_nil, ← String.toList_ofList (l := f.chars)] at hrefuses
    exact compute_of_error (parse_of_refuses hrefuses)
  | false =>
    rw [compute_of_ok (parse_chars hrange hlevels), if_pos f.isArithmetic_tree]
    rfl

theorem significant_of_spread {f : Formula} {raw : String} (h : Spread f.chars raw.toList) :
    significant raw = f.chars :=
  h.filter fun c hc => isSeparator_of_inAlphabet (f.inAlphabet_chars c hc)

/-- A formula with at most 100 operators inside one another, written out with separators anywhere, is
solved to the value of its tree, unless it has an integer past the finite numbers. -/
theorem solve_spread {f : Formula} (hlevels : f.levels ≤ 100) {raw : String}
    (hraw : Spread f.chars raw.toList) :
    solve raw = (if f.exceedsRange then .error (.evaluation .intTooLarge) else f.tree.value) ∧
      ∀ failure, solve raw = .error failure →
        ∃ fault : Fault, failure = .evaluation fault ∧ (fault = .intTooLarge ∨ fault.isArithmetic) := by
  have hsignificant := significant_of_spread hraw
  have hsolve : solve raw =
      if f.exceedsRange then .error (.evaluation .intTooLarge) else f.tree.value := by
    rw [solve_of_significant, hsignificant, compute_chars hlevels]
    · rw [hsignificant]
      exact f.inAlphabet_chars
    · rw [hsignificant]
      exact f.count_chars
  refine ⟨hsolve, ?_⟩
  intro failure hfailure
  rw [hsolve] at hfailure
  split at hfailure
  · cases hfailure
    exact ⟨.intTooLarge, rfl, .inl rfl⟩
  · rcases Expr.evaluates_of_isArithmetic f.isArithmetic_tree with ⟨v, hvalue⟩ | ⟨fault, hfault, hvalue⟩
    · rw [hvalue] at hfailure
      cases hfailure
    · rw [hvalue] at hfailure
      cases hfailure
      exact ⟨fault, rfl, .inr hfault⟩

theorem solve_spread_quotient :
    ∃ f : Formula, f.chars = "(17//(-.5))".toList ∧ f.levels ≤ 100 ∧
      Spread f.chars "(1 7/ /\t(-. 5) )".toList ∧
      solve "(1 7/ /\t(-. 5) )" =
        (if f.exceedsRange then .error (.evaluation .intTooLarge) else f.tree.value) ∧
      f.exceedsRange = false ∧ f.tree.value = .ok (-.ofNat 34) := by
  let literal : PointLiteral := ⟨[], ['5'], by simp, by simp, .inr (by simp)⟩
  let f : Formula :=
    .binary ⟨.floorDiv, by decide⟩ (.integer 17) (.signed ⟨.neg, by decide⟩ (.point literal))
  have hlevels : f.levels ≤ 100 := by decide
  have hraw : Spread f.chars "(1 7/ /\t(-. 5) )".toList := by
    have hspread := spread_significant "(1 7/ /\t(-. 5) )"
    have hsignificant : significant "(1 7/ /\t(-. 5) )" = f.chars := by decide
    rwa [hsignificant] at hspread
  exact ⟨f, by decide, hlevels, hraw, (solve_spread hlevels hraw).1, by decide +kernel,
    by decide +kernel⟩

end Formula

end Abacus
