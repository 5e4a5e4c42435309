import Abacus.Proofs.Counting.Moves

namespace Abacus.Counting

open Lexeme (next)
open Abacus.Expr (descend outcome keep closed outcome_items)
open Parsed (ofTree ofTrees deepest exprs)

variable {ls : List Lexeme} {inner : Callees} {pos start fuel : Nat}

section Collecting

variable {α : Type}

/-- What is found behind what was found before. -/
def collect (found : List α) (y : Except Fault (List α × List Lexeme)) :
    Except Fault (List α × List Lexeme) :=
  y >>= fun others => .ok (found ++ others.1, others.2)

theorem collect_nil (y : Except Fault (List α × List Lexeme)) : collect [] y = y := by
  cases y <;> rfl

theorem collect_ok (found others : List α) (left : List Lexeme) :
    collect found (.ok (others, left)) = .ok (found ++ others, left) := rfl

theorem collect_bind {β : Type} (found : List α) (x : Except Fault β)
    (f : β → Except Fault (List α × List Lexeme)) :
    collect found (x >>= f) = x >>= fun value => collect found (f value) := by
  cases x <;> rfl

theorem collect_cons (found : List α) (item : α) (y : Except Fault (List α × List Lexeme)) :
    (y >>= fun others => collect found (.ok (item :: others.1, others.2))) = collect (found ++ [item]) y := by
  cases y with
  | error fault => rfl
  | ok others => exact congrArg (fun all => Except.ok (all, others.2)) (List.append_cons ..)

theorem collect_then {β : Type} (found : List α) (y : Except Fault (List α × List Lexeme))
    (g : List α × List Lexeme → Except Fault β) :
    collect found y >>= g = y >>= fun others => g (found ++ others.1, others.2) := by
  cases y <;> rfl

end Collecting

/-- The calls agree with the readers from a place on. -/
structure Agree (ls : List Lexeme) (inner : Callees) (start : Nat) : Prop where
  expression : ∀ {pos} least descents, start ≤ pos → pos < ls.length →
    Tallies (Reached ls (pos + 1) descents ofTree) (inner.expression least ⟨pos, descents⟩)
      (outcome ((readers descents).expression least (ls.drop pos)))
  operand : ∀ {pos} descents, start ≤ pos → pos < ls.length →
    Tallies (Reached ls (pos + 1) descents ofTree) (inner.operand ⟨pos, descents⟩)
      (outcome ((readers descents).operand (ls.drop pos)))

theorem Agree.behind {start' : Nat} (h : Agree ls inner start) (hstart : start ≤ start') :
    Agree ls inner start' where
  expression least descents hle := h.expression least descents (Nat.le_trans hstart hle)
  operand descents hle := h.operand descents (Nat.le_trans hstart hle)

/-- The items found and those that are left up to a closing bracket. -/
def moreItems (bracket : Bracket) (descents : Nat) (found : List Expr) (ts : List Lexeme) :
    Except Fault (List Expr × List Lexeme) :=
  collect found (outcome (Expr.items (readers descents) bracket ts))

section Readers

variable (hends : Ends ls)
include hends

theorem nextItem_tallies (hinner : Agree ls inner pos) (hpos : pos < ls.length) (bracket : Bracket)
    (descents : Nat) (found : List Expr) :
    Tallies (Turned ls (moreItems bracket descents) pos descents ofTrees)
      (nextItem ls inner bracket (ofTrees found) ⟨pos, descents⟩)
      (moreItems bracket descents found (ls.drop pos)) := by
  obtain ⟨lexeme, hdrop⟩ := exists_lexeme hpos
  unfold nextItem
  rw [moreItems, hdrop, Expr.outcome_items, ← Expr.next_cons lexeme (ls.drop (pos + 1)), ← hdrop]
  rw [apply_ite (collect found)]
  apply Tallies.eat hends hpos (by simp)
  · intro _ hlt
    rw [collect_ok, List.append_nil]
    exact .ok (.done (Nat.le_succ pos) hlt)
  intro _
  rw [collect_bind]
  apply (hinner.expression _ _ (Nat.le_refl pos) hpos).bind
  intro item place hplace hless
  dsimp only
  rw [apply_ite (collect found)]
  apply Tallies.eat hends hless (by simp)
  · intro _ hlt
    rw [List.tail_drop, collect_bind, collect_cons]
    exact .again _ (Parsed.ofTrees_concat found item) (by omega) hlt
  · intro _
    rw [← bind_pure (closed bracket [item] (ls.drop place)), collect_bind]
    apply Tallies.expect hends hless
    intro hlt
    exact .last _ (Parsed.ofTrees_concat found item) (by omega) hlt

/-- What the reader returns for the items, which are a descent. -/
theorem items_tallies (hinner : Agree ls inner pos) (hpos : pos < ls.length) (hfuel : ls.length - pos ≤ fuel)
    (bracket : Bracket) (descents : Nat) :
    Tallies (Reached ls (pos + 1) descents ofTrees) (items ls inner fuel bracket ⟨pos, descents⟩)
      (descend (below descents) (ls.drop pos) >>= fun inner =>
        outcome (Expr.items inner bracket (ls.drop pos))) := by
  have hround (found : List Expr) (place : Nat) (hplace : pos ≤ place) (hless : place < ls.length) :=
    nextItem_tallies hends (hinner.behind hplace) hless bracket (descents + 1) found
  have hloop := Tallies.rounds hround [] (Nat.le_refl pos) hpos hfuel
  rw [moreItems, collect_nil] at hloop
  have hdescent := Tallies.descent (f := pure) (g := pure)
    (y := fun inner => outcome (Expr.items inner bracket (ls.drop pos))) hpos hloop.strict
    fun found place hplace hless => .reached found hplace hless
  simp only [bind_pure] at hdescent
  exact hdescent

/-- The items before other steps that tally. -/
theorem items_bind {β γ : Type} {P : γ → Cursor → Except Fault β → Prop} {f : List Parsed → Steps γ}
    {g : List Expr × List Lexeme → Except Fault β} (hinner : Agree ls inner pos) (hpos : pos < ls.length)
    (hfuel : ls.length - pos ≤ fuel) (bracket : Bracket) (descents : Nat)
    (hf : ∀ found place, pos < place → place < ls.length →
      Tallies P (f (ofTrees found) ⟨place, descents⟩) (g (found, ls.drop place))) :
    Tallies P ((items ls inner fuel bracket >>= f) ⟨pos, descents⟩)
      (descend (below descents) (ls.drop pos) >>= fun inner =>
        outcome (Expr.items inner bracket (ls.drop pos)) >>= g) := by
  rw [← bind_assoc]
  exact (items_tallies hends hinner hpos hfuel bracket descents).bind hf

/-- What follows the first expression behind a parenthesis, where that is not all. -/
def tupleFrom (descents : Nat) (first : Expr) (ts : List Lexeme) : Except Fault (Expr × List Lexeme) :=
  if next ts = .symbol .comma then
    descend (below descents) ts.tail >>= fun inner =>
    outcome (Expr.items inner .round ts.tail) >>= fun others =>
    keep (.tuple (first :: others.1)) others.2
  else .error (Lexeme.unexpected ts)

theorem tupleBehind_tallies (hinner : Agree ls inner (pos + 1)) (hpos : pos < ls.length)
    (hfuel : ls.length - pos ≤ fuel) (descents : Nat) (first : Expr) :
    Tallies (Reached ls (pos + 1) descents ofTree) (tupleBehind ls inner fuel (ofTree first) ⟨pos, descents⟩)
      (tupleFrom descents first (ls.drop pos)) := by
  apply Tallies.eat hends hpos (by simp)
  · intro _ hlt
    rw [List.tail_drop]
    apply items_bind hends hinner hlt (by omega)
    intro others place hplace hless
    exact .nodeOver (first :: others) .tuple rfl (by omega) hless
  · intro _
    exact .unexpected hpos

omit hends in
/-- The reader looks for the comma first, the parser for the bracket; no token is both. -/
theorem outcome_group_eq (descents : Nat) (ts : List Lexeme) :
    outcome (Expr.group (below descents) ts) =
      if next ts = .closing .round then .ok (.tuple [], ts.tail)
      else descend (below descents) ts >>= fun inner =>
        outcome (inner.expression Precedence.or ts) >>= fun first =>
        if next first.2 = .closing .round then .ok (first.1, first.2.tail)
        else tupleFrom descents first.1 first.2 := by
  rw [Expr.outcome_group]
  congr 2
  funext inner
  congr 1
  funext ⟨first, left⟩
  dsimp only
  rw [closed_eq, tupleFrom]
  by_cases hcomma : next left = .symbol .comma
  · rw [hcomma, if_pos rfl, if_neg (by simp), if_pos rfl]
  · rw [if_neg hcomma, if_neg hcomma]

theorem group_tallies (hinner : Agree ls inner pos) (hpos : pos < ls.length) (hfuel : ls.length - pos ≤ fuel)
    (descents : Nat) :
    Tallies (Reached ls (pos + 1) descents ofTree) (group ls inner fuel ⟨pos, descents⟩)
      (outcome (Expr.group (below descents) (ls.drop pos))) := by
  unfold group
  rw [outcome_group_eq]
  apply Tallies.eat hends hpos (by simp)
  · intro _ hlt
    rw [List.tail_drop]
    exact .reached (Expr.tuple []) (Nat.le_refl _) hlt
  intro _
  apply Tallies.descent hpos (hinner.expression _ _ (Nat.le_refl pos) hpos)
  intro first place hplace hless
  apply Tallies.eat hends hless (by simp)
  · intro _ hlt
    rw [List.tail_drop]
    exact .reached first (by omega) hlt
  · intro _
    have hfuel' : ls.length - place ≤ fuel := by omega
    have htuple := tupleBehind_tallies hends (hinner.behind (by omega)) hless hfuel' descents first
    exact htuple.back (by omega)

theorem atom_tallies (hinner : Agree ls inner (pos + 1)) (hpos : pos < ls.length)
    (hfuel : ls.length - pos ≤ fuel) (descents : Nat) :
    Tallies (Reached ls (pos + 1) descents ofTree) (atom ls inner fuel ⟨pos, descents⟩)
      (outcome (Expr.atom (below descents) (ls.drop pos))) := by
  obtain ⟨lexeme, hdrop⟩ := exists_lexeme hpos
  have hlt (h : lexeme.token ≠ .eof) : pos + 1 < ls.length := hends.lt_length hpos (by rwa [hdrop])
  unfold atom
  rw [advance_bind, hdrop, Expr.outcome_atom, Expr.next_cons]
  obtain ⟨token, offset⟩ := lexeme
  dsimp only at hlt ⊢
  cases hconstant : Constant.ofToken? token with
  | some c => exact .reached (Expr.constant c) (Nat.le_refl _) (hlt (by rintro rfl; cases hconstant))
  | none =>
    cases token with
    | name text => exact .reached (Expr.name text) (Nat.le_refl _) (hlt (by simp))
    | opening bracket =>
      have hless := hlt (by simp)
      cases bracket with
      | round => exact (group_tallies hends hinner hless (by omega) descents).back (by omega)
      | square =>
        dsimp only
        apply items_bind hends hinner hless (by omega)
        intro found place hplace hless
        exact .nodeOver found .list rfl (by omega) hless
    | int | float | imaginary | str | keyword | symbol | closing | eof =>
      dsimp only
      rw [stepBack_bind, ← hdrop]
      exact .unexpected hpos

theorem nextTrailer_tallies (hinner : Agree ls inner (pos + 1)) (hpos : pos < ls.length)
    (hfuel : ls.length - pos ≤ fuel) (descents : Nat) (target : Expr) :
    Tallies (Turned ls (fun target ts => outcome (Expr.trailers (below descents) target ts)) pos descents
        ofTree)
      (nextTrailer ls inner fuel (ofTree target) ⟨pos, descents⟩)
      (outcome (Expr.trailers (below descents) target (ls.drop pos))) := by
  have hlt (h : next (ls.drop pos) ≠ .eof) : pos + 1 < ls.length := hends.lt_length hpos h
  -- Every trailer ends with a new node.
  have happlied {deepest place : Nat} (e : Expr) (hheight : deepest + 1 = e.height) (hplace : pos < place)
      (hless : place < ls.length) :
      Tallies (Turned ls (fun target ts => outcome (Expr.trailers (below descents) target ts)) pos descents
          ofTree)
        ((node ls deepest e >>= fun applied => pure (.again applied)) ⟨place, descents⟩)
        (keep e (ls.drop place) >>= fun applied =>
          outcome (Expr.trailers (below descents) applied.1 applied.2)) := by
    apply (Tallies.node hheight (Nat.le_refl place) hless).bind
    intro applied behind hbehind hless
    exact .again applied rfl (by omega) hless
  unfold nextTrailer
  rw [peek_bind, Expr.outcome_trailers, List.tail_drop]
  cases hnext : next (ls.drop pos) with
  | opening bracket =>
    have hless := hlt (by rw [hnext]; simp)
    cases bracket with
    | round =>
      dsimp only
      rw [moveOn_bind]
      apply items_bind hends hinner hless (by omega)
      intro arguments place hplace hless
      dsimp only
      rw [Parsed.deepest_ofTrees, Parsed.exprs_ofTrees]
      exact happlied (.call target arguments) rfl (by omega) hless
    | square =>
      dsimp only
      rw [moveOn_bind]
      apply Tallies.descent hless (hinner.expression _ _ (Nat.le_refl _) hless)
      intro index place hplace hless
      apply Tallies.expect hends hless
      intro hless
      exact happlied (.subscript target index) rfl (by omega) hless
  | symbol sign =>
    cases sign with
    | dot =>
      have hless := hlt (by rw [hnext]; simp)
      dsimp only
      rw [moveOn_bind, advance_bind]
      cases hmember : next (ls.drop (pos + 1)) with
      | name text =>
        dsimp only
        rw [List.tail_drop]
        have hbehind := hends.lt_length hless (by rw [hmember]; simp)
        exact happlied (.member target text) rfl (by omega) hbehind
      | _ =>
        dsimp only
        rw [stepBack_bind]
        exact .unexpected hless
    | _ => exact .done target hpos
  | _ => exact .done target hpos

theorem primary_tallies (hinner : Agree ls inner (pos + 1)) (hpos : pos < ls.length)
    (hfuel : ls.length - pos ≤ fuel) (descents : Nat) :
    Tallies (Reached ls (pos + 1) descents ofTree) (primary ls inner fuel ⟨pos, descents⟩)
      (outcome (Expr.primary (below descents) (ls.drop pos))) := by
  unfold primary
  rw [Expr.outcome_primary]
  apply (atom_tallies hends hinner hpos hfuel descents).bind
  intro target place hplace hless
  have hround (target : Expr) (behind : Nat) (hbehind : place ≤ behind) (hless : behind < ls.length) :=
    nextTrailer_tallies hends (hinner.behind (by omega)) hless (by omega : _ ≤ fuel) descents
      target
  exact (Tallies.rounds hround target (Nat.le_refl place) hless (by omega)).back hplace

theorem power_tallies (hinner : Agree ls inner (pos + 1)) (hpos : pos < ls.length)
    (hfuel : ls.length - pos ≤ fuel) (descents : Nat) :
    Tallies (Reached ls (pos + 1) descents ofTree) (power ls inner fuel ⟨pos, descents⟩)
      (outcome (Expr.power (below descents) (ls.drop pos))) := by
  unfold power
  rw [Expr.outcome_power]
  apply (primary_tallies hends hinner hpos hfuel descents).bind
  intro base place hplace hless
  apply Tallies.eat hends hless (by simp)
  · intro _ hlt
    rw [List.tail_drop]
    apply Tallies.descent hlt (hinner.operand _ (by omega) hlt)
    intro exponent behind hbehind hless
    exact .node rfl (by omega) hless
  · intro _
    exact .reached base hplace hless

theorem unaryOrPower_tallies (hinner : Agree ls inner (pos + 1)) (hpos : pos < ls.length)
    (hfuel : ls.length - pos ≤ fuel) (least descents : Nat) :
    Tallies (Reached ls (pos + 1) descents ofTree) (unaryOrPower ls inner fuel least ⟨pos, descents⟩)
      (outcome (Expr.unaryOrPower (below descents) least (ls.drop pos))) := by
  obtain ⟨lexeme, hdrop⟩ := exists_lexeme hpos
  have hpower := power_tallies hends hinner hpos hfuel descents
  rw [hdrop] at hpower
  have hless (h : UnaryOp.ofToken? lexeme.token ≠ none) : pos + 1 < ls.length := by
    apply hends.lt_length hpos
    rw [hdrop, Expr.next_cons]
    intro heof
    exact h (by rw [heof]; rfl)
  unfold unaryOrPower sign?
  rw [peek_bind, hdrop, Expr.outcome_unaryOrPower, Expr.next_cons]
  cases hsign : UnaryOp.ofToken? lexeme.token with
  | none => exact hpower
  | some op =>
    have hlt := hless (by rw [hsign]; simp)
    cases op with
    | not =>
      dsimp only
      by_cases hleast : least ≤ Precedence.not
      · rw [if_pos hleast, if_pos hleast]
        apply Tallies.descent hlt (hinner.expression _ _ (Nat.le_refl _) hlt)
        intro operand place hplace hless
        exact .node rfl (by omega) hless
      · rw [if_neg hleast, if_neg hleast]
        exact hpower
    | pos | neg | invert =>
      apply Tallies.descent hlt (hinner.operand _ (Nat.le_refl _) hlt)
      intro operand place hplace hless
      exact .node rfl (by omega) hless

/-- The operands found and those that go on a chain behind them. -/
def moreOperands (op : Connective) (descents : Nat) (found : List Expr) (ts : List Lexeme) :
    Except Fault (List Expr × List Lexeme) :=
  if Link.ofToken? (next ts) = some (.connective op) then
    collect found (outcome (Expr.connectedTo (readers descents) op ts.tail))
  else .ok (found, ts)

/-- The comparisons found and those that go on a chain behind them. -/
def moreComparisons (descents : Nat) (found : List (Comparison × Expr)) (ts : List Lexeme) :
    Except Fault (List (Comparison × Expr) × List Lexeme) :=
  match Link.ofToken? (next ts) with
  | some (.comparison op) => collect found (outcome (Expr.comparedTo (readers descents) op ts.tail))
  | _ => .ok (found, ts)

omit hends in
theorem collect_connectedTo (op : Connective) (descents : Nat) (found : List Expr) (ts : List Lexeme) :
    collect found (outcome (Expr.connectedTo (readers descents) op ts)) =
      outcome ((readers descents).expression (op.precedence + 1) ts) >>= fun operand =>
        moreOperands op descents (found ++ [operand.1]) operand.2 := by
  rw [Expr.outcome_connectedTo, collect_bind]
  congr 1
  funext ⟨operand, left⟩
  dsimp only
  unfold moreOperands
  split
  · rw [collect_bind, collect_cons]
  · rfl

omit hends in
theorem collect_comparedTo (op : Comparison) (descents : Nat) (found : List (Comparison × Expr))
    (ts : List Lexeme) :
    collect found (outcome (Expr.comparedTo (readers descents) op ts)) =
      outcome ((readers descents).expression (Precedence.comparison + 1) ts) >>= fun operand =>
        moreComparisons descents (found ++ [(op, operand.1)]) operand.2 := by
  rw [Expr.outcome_comparedTo, collect_bind]
  congr 1
  funext ⟨operand, left⟩
  dsimp only
  unfold moreComparisons
  cases Link.ofToken? (next left) with
  | none => rfl
  | some link =>
    cases link with
    | arithmetic | connective => rfl
    | comparison following =>
      dsimp only
      rw [collect_bind, collect_cons]

theorem lt_length_of_link {link : Link} (hpos : pos < ls.length)
    (hlink : Link.ofToken? (next (ls.drop pos)) = some link) : pos + 1 < ls.length := by
  apply hends.lt_length hpos
  intro heof
  rw [heof] at hlink
  cases hlink

theorem nextOperand_tallies (hinner : Agree ls inner (pos + 1)) (hpos : pos < ls.length) (op : Connective)
    (descents : Nat) (found : List Expr) :
    Tallies (Turned ls (moreOperands op descents) pos descents ofTrees)
      (nextOperand ls inner op (ofTrees found) ⟨pos, descents⟩)
      (moreOperands op descents found (ls.drop pos)) := by
  unfold nextOperand
  rw [peek_bind, moreOperands]
  by_cases hlink : Link.ofToken? (next (ls.drop pos)) = some (.connective op)
  · have hlt := lt_length_of_link hends hpos hlink
    rw [if_pos hlink, if_pos hlink, moveOn_bind, List.tail_drop, collect_connectedTo]
    apply (hinner.expression _ _ (Nat.le_refl _) hlt).bind
    intro operand place hplace hless
    exact .again _ (Parsed.ofTrees_concat found operand) (by omega) hless
  · rw [if_neg hlink, if_neg hlink]
    exact .done found hpos

theorem nextComparison_tallies (hinner : Agree ls inner (pos + 1)) (hpos : pos < ls.length) (first : Expr)
    (descents : Nat) (found : List (Comparison × Expr)) :
    Tallies (Turned ls (moreComparisons descents) pos descents (Chain.ofTrees first))
      (nextComparison ls inner (Chain.ofTrees first found) ⟨pos, descents⟩)
      (moreComparisons descents found (ls.drop pos)) := by
  unfold nextComparison
  rw [peek_bind, moreComparisons]
  cases hlink : Link.ofToken? (next (ls.drop pos)) with
  | none => exact .done found hpos
  | some link =>
    have hlt := lt_length_of_link hends hpos hlink
    cases link with
    | arithmetic | connective => exact .done found hpos
    | comparison op =>
      dsimp only
      rw [moveOn_bind, List.tail_drop, collect_comparedTo]
      apply (hinner.expression _ _ (Nat.le_refl _) hlt).bind
      intro operand place hplace hless
      exact .again _ (Chain.ofTrees_concat first found op operand) (by omega) hless

variable {lexeme : Lexeme}

/-- A chain is a descent from before its first link, which the caller has seen. -/
theorem connectedTo_tallies (hinner : Agree ls inner (pos + 1)) (hpos : pos < ls.length)
    (hfuel : ls.length - pos ≤ fuel) (hdrop : ls.drop pos = lexeme :: ls.drop (pos + 1)) (first : Expr)
    {op : Connective} (hlink : Link.ofToken? lexeme.token = some (.connective op)) (descents : Nat) :
    Tallies (Reached ls (pos + 1) descents ofTree)
      (connectedTo ls inner fuel (ofTree first) op ⟨pos, descents⟩)
      (outcome (Expr.extend (below descents) first (.connective op) lexeme (ls.drop (pos + 1)))) := by
  have hround (found : List Expr) (place : Nat) (hplace : pos ≤ place) (hless : place < ls.length) :=
    nextOperand_tallies hends (hinner.behind (Nat.succ_le_succ hplace)) hless op (descents + 1) found
  have hloop := Tallies.rounds hround [first] (Nat.le_refl pos) hpos hfuel
  rw [moreOperands, hdrop, Expr.next_cons, if_pos hlink, List.tail_cons] at hloop
  have hchain : Tallies (Reached ls pos descents ofTree)
      (connectedTo ls inner fuel (ofTree first) op ⟨pos, descents⟩)
      (outcome (Expr.extend (below descents) first (.connective op) lexeme (ls.drop (pos + 1)))) := by
    unfold connectedTo
    rw [Expr.outcome_extend]
    dsimp only
    rw [← hdrop]
    have hnode := Tallies.descent
      (f := fun operands => node ls (deepest operands) (.connected op (exprs operands)))
      (y := fun inner => collect [first] (outcome (Expr.connectedTo inner op (ls.drop (pos + 1)))))
      (g := fun operands => keep (.connected op operands.1) operands.2) hpos hloop
      fun operands place hplace hless => .nodeOver operands (.connected op) rfl hplace hless
    simp only [collect_then] at hnode
    exact hnode
  -- The loop could end at once; that it does not is known from the reader, which takes a lexeme.
  exact hchain.strict.back (Nat.le_succ _)

theorem comparedTo_tallies (hinner : Agree ls inner (pos + 1)) (hpos : pos < ls.length)
    (hfuel : ls.length - pos ≤ fuel) (hdrop : ls.drop pos = lexeme :: ls.drop (pos + 1)) (first : Expr)
    {op : Comparison} (hlink : Link.ofToken? lexeme.token = some (.comparison op)) (descents : Nat) :
    Tallies (Reached ls (pos + 1) descents ofTree) (comparedTo ls inner fuel (ofTree first) ⟨pos, descents⟩)
      (outcome (Expr.extend (below descents) first (.comparison op) lexeme (ls.drop (pos + 1)))) := by
  have hround (found : List (Comparison × Expr)) (place : Nat) (hplace : pos ≤ place)
      (hless : place < ls.length) :=
    nextComparison_tallies hends (hinner.behind (Nat.succ_le_succ hplace)) hless first (descents + 1) found
  have hloop := Tallies.rounds hround [] (Nat.le_refl pos) hpos hfuel
  rw [Chain.ofTrees_nil, moreComparisons, hdrop, Expr.next_cons, hlink] at hloop
  dsimp only at hloop
  rw [collect_nil, List.tail_cons] at hloop
  have hchain : Tallies (Reached ls pos descents ofTree)
      (comparedTo ls inner fuel (ofTree first) ⟨pos, descents⟩)
      (outcome (Expr.extend (below descents) first (.comparison op) lexeme (ls.drop (pos + 1)))) := by
    unfold comparedTo
    rw [Expr.outcome_extend]
    dsimp only
    rw [← hdrop]
    apply Tallies.descent hpos hloop
    intro others place hplace hless
    exact .node rfl hplace hless
  exact hchain.strict.back (Nat.le_succ _)

theorem extend_tallies (hinner : Agree ls inner (pos + 1)) (hpos : pos < ls.length)
    (hfuel : ls.length - pos ≤ fuel) (hdrop : ls.drop pos = lexeme :: ls.drop (pos + 1)) (left : Expr)
    {link : Link} (hlink : Link.ofToken? lexeme.token = some link) (descents : Nat) :
    Tallies (Reached ls (pos + 1) descents ofTree) (extend ls inner fuel (ofTree left) link ⟨pos, descents⟩)
      (outcome (Expr.extend (below descents) left link lexeme (ls.drop (pos + 1)))) := by
  have hlt := lt_length_of_link hends hpos (by rw [hdrop]; exact hlink)
  cases link with
  | connective op => exact connectedTo_tallies hends hinner hpos hfuel hdrop left hlink descents
  | comparison op => exact comparedTo_tallies hends hinner hpos hfuel hdrop left hlink descents
  | arithmetic op =>
    unfold extend
    rw [Expr.outcome_extend]
    dsimp only
    rw [moveOn_bind]
    apply Tallies.descent hlt (hinner.expression _ _ (Nat.le_refl _) hlt)
    intro right place hplace hless
    exact .node rfl (by omega) hless

theorem nextLink_tallies (hinner : Agree ls inner (pos + 1)) (hpos : pos < ls.length)
    (hfuel : ls.length - pos ≤ fuel) (least descents : Nat) (left : Expr) :
    Tallies (Turned ls (fun left ts => outcome (Expr.climb (below descents) least left ts)) pos descents
        ofTree)
      (nextLink ls inner fuel least (ofTree left) ⟨pos, descents⟩)
      (outcome (Expr.climb (below descents) least left (ls.drop pos))) := by
  obtain ⟨lexeme, hdrop⟩ := exists_lexeme hpos
  unfold nextLink
  rw [peek_bind, hdrop, Expr.outcome_climb, Expr.next_cons]
  dsimp only
  cases hlink : Link.ofToken? lexeme.token with
  | none =>
    rw [← hdrop]
    exact .done left hpos
  | some link =>
    dsimp only
    by_cases hloose : link.precedence < least
    · rw [if_pos hloose, if_pos hloose, ← hdrop]
      exact .done left hpos
    · rw [if_neg hloose, if_neg hloose]
      apply (extend_tallies hends hinner hpos hfuel hdrop left hlink descents).bind
      intro joined place hplace hless
      exact .again joined rfl hplace hless

theorem expression_tallies (hinner : Agree ls inner (pos + 1)) (hpos : pos < ls.length)
    (hfuel : ls.length - pos ≤ fuel) (least descents : Nat) :
    Tallies (Reached ls (pos + 1) descents ofTree) (expression ls inner fuel least ⟨pos, descents⟩)
      (outcome (Expr.expression (below descents) least (ls.drop pos))) := by
  unfold expression
  rw [Expr.outcome_expression]
  apply (unaryOrPower_tallies hends hinner hpos hfuel least descents).bind
  intro first place hplace hless
  have hround (left : Expr) (behind : Nat) (hbehind : place ≤ behind) (hless : behind < ls.length) :=
    nextLink_tallies hends (hinner.behind (by omega)) hless (by omega : _ ≤ fuel) least
      descents left
  exact (Tallies.rounds hround first (Nat.le_refl place) hless (by omega)).back hplace

/-- Fuel for the lexemes that are left is enough for a call: whatever it calls in turn has fewer left. -/
theorem callees_agree (hfuel : ls.length - start ≤ fuel) : Agree ls (callees ls fuel) start := by
  induction fuel generalizing start with
  | zero =>
    constructor
    · intro pos least descents hstart hpos
      omega
    · intro pos descents hstart hpos
      omega
  | succ fuel ih =>
    constructor
    · intro pos least descents hstart hpos
      rw [readers_eq]
      exact expression_tallies hends (ih (by omega)) hpos (by omega) least descents
    · intro pos descents hstart hpos
      rw [readers_eq]
      exact unaryOrPower_tallies hends (ih (by omega)) hpos (by omega) Precedence.operand descents

/-- The expressions found and those that commas precede behind them. -/
def moreListed (descents : Nat) (found : List Expr) (ts : List Lexeme) :
    Except Fault (List Expr × List Lexeme) :=
  collect found (outcome (Expr.furtherItems (readers descents) ts))

theorem nextListed_tallies (hinner : Agree ls inner (pos + 1)) (hpos : pos < ls.length) (descents : Nat)
    (found : List Expr) :
    Tallies (Turned ls (moreListed descents) pos descents ofTrees)
      (nextListed ls inner (ofTrees found) ⟨pos, descents⟩) (moreListed descents found (ls.drop pos)) := by
  unfold nextListed
  rw [moreListed, Expr.outcome_furtherItems, List.tail_drop, apply_ite (collect found)]
  apply Tallies.eat hends hpos (by simp)
  · intro _ hlt
    rw [if_pos rfl, peek_bind]
    by_cases hend : next (ls.drop (pos + 1)) = .eof
    · rw [if_pos hend, if_pos hend, collect_ok, List.append_nil]
      exact .last found rfl (Nat.lt_succ_self pos) hlt
    · rw [if_neg hend, if_neg hend, collect_bind]
      apply (hinner.expression _ _ (Nat.le_refl _) hlt).bind
      intro item place hplace hless
      dsimp only
      rw [collect_bind, collect_cons]
      exact .again _ (Parsed.ofTrees_concat found item) (by omega) hless
  · intro _
    rw [collect_ok, List.append_nil]
    exact .done found hpos

/-- An expression, or several with commas, where so many descents are under way. -/
def sentenceFrom (descents : Nat) (ts : List Lexeme) : Except Fault (Expr × List Lexeme) :=
  outcome ((readers descents).expression Precedence.or ts) >>= fun first =>
    if next first.2 = .symbol .comma then
      outcome (Expr.furtherItems (readers descents) first.2) >>= fun others =>
      keep (.tuple (first.1 :: others.1)) others.2
    else .ok first

theorem sentence_tallies (hinner : Agree ls inner pos) (hpos : pos < ls.length)
    (hfuel : ls.length - pos ≤ fuel) (descents : Nat) :
    Tallies (Reached ls (pos + 1) descents ofTree) (sentence ls inner fuel ⟨pos, descents⟩)
      (sentenceFrom descents (ls.drop pos)) := by
  unfold sentence sentenceFrom
  apply (hinner.expression _ _ (Nat.le_refl pos) hpos).bind
  intro first place hplace hless
  dsimp only
  rw [peek_bind]
  by_cases hcomma : next (ls.drop place) = .symbol .comma
  · have hround (found : List Expr) (behind : Nat) (hbehind : place ≤ behind) (hless : behind < ls.length) :=
      nextListed_tallies hends (hinner.behind (by omega)) hless descents found
    have hloop := Tallies.rounds hround [first] (Nat.le_refl place) hless (by omega : _ ≤ fuel)
    have hnode : Tallies (Reached ls (pos + 1) descents ofTree)
        ((rounds (nextListed ls inner) fuel (ofTrees [first]) >>= fun found =>
          node ls (deepest found) (.tuple (exprs found))) ⟨place, descents⟩)
        (moreListed descents [first] (ls.drop place) >>= fun found => keep (.tuple found.1) found.2) := by
      apply hloop.bind
      intro found behind hbehind hless
      exact .nodeOver found .tuple rfl (by omega) hless
    rw [moreListed, collect_then] at hnode
    rw [if_pos hcomma, if_pos hcomma]
    exact hnode
  · rw [if_neg hcomma, if_neg hcomma]
    exact .reached first hplace hless

end Readers

end Abacus.Counting
