import Abacus.Proofs.Counting.Parser
import Abacus.Proofs.Grammar.Outcome

namespace Abacus.Counting

open Lexeme (next)
open Abacus.Expr (Descent descent descend maxDepth outcome keep closed)

variable {α β γ δ : Type} {ls : List Lexeme} {pos start descents fuel : Nat} {token : Token}

/-- A tree with its own height. -/
def Parsed.ofTree (e : Expr) : Parsed := ⟨e, e.height⟩

def Parsed.ofTrees (es : List Expr) : List Parsed := es.map ofTree

theorem Parsed.deepest_ofTrees (es : List Expr) : deepest (ofTrees es) = Expr.heightOfList es := by
  induction es with
  | nil => rfl
  | cons e es ih => exact congrArg (max e.height) ih

theorem Parsed.exprs_ofTrees (es : List Expr) : exprs (ofTrees es) = es := by
  unfold exprs ofTrees
  rw [List.map_map]
  exact List.map_id es

theorem Parsed.ofTrees_concat (es : List Expr) (e : Expr) :
    ofTrees es ++ [ofTree e] = ofTrees (es ++ [e]) := by
  unfold ofTrees
  rw [List.map_append, List.map_singleton]

/-- Comparisons with the heights of all operands in them, the first one too. -/
def Chain.ofTrees (first : Expr) (others : List (Comparison × Expr)) : Chain :=
  ⟨max first.height (Expr.heightOfCompared others), others⟩

theorem Chain.ofTrees_nil (first : Expr) : ofTrees first [] = ⟨(Parsed.ofTree first).depth, []⟩ := by
  unfold ofTrees
  rw [Expr.heightOfCompared, Nat.max_zero]
  rfl

theorem Chain.ofTrees_concat (first : Expr) (others : List (Comparison × Expr)) (op : Comparison)
    (e : Expr) :
    (⟨max (ofTrees first others).depth e.height, others ++ [(op, e)]⟩ : Chain) =
      ofTrees first (others ++ [(op, e)]) := by
  have hheight : Expr.heightOfCompared (others ++ [(op, e)]) =
      max (Expr.heightOfCompared others) e.height := by
    induction others with
    | nil => exact Nat.max_comm _ _
    | cons other others ih =>
      rw [List.cons_append, Expr.heightOfCompared, ih, Expr.heightOfCompared, Nat.max_assoc]
  unfold ofTrees
  rw [hheight, Nat.max_assoc]

/-- The end is the last lexeme. -/
def Ends (ls : List Lexeme) : Prop := ∃ us offset, ls = us ++ [⟨.eof, offset⟩]

theorem Ends.lt_length (hends : Ends ls) (hpos : pos < ls.length) (h : next (ls.drop pos) ≠ .eof) :
    pos + 1 < ls.length := by
  obtain ⟨us, offset, rfl⟩ := hends
  rw [List.length_append, List.length_singleton] at hpos ⊢
  have hne : pos ≠ us.length := by
    rintro rfl
    exact h (by rw [List.drop_left]; rfl)
  omega

theorem exists_lexeme (hpos : pos < ls.length) : ∃ lexeme, ls.drop pos = lexeme :: ls.drop (pos + 1) :=
  ⟨_, List.drop_eq_getElem_cons hpos⟩

theorem step_bind (x : Steps α) (f : α → Steps β) (s : Cursor) :
    (x >>= f) s = x s >>= fun found => f found.1 found.2 := rfl

theorem peek_bind (f : Token → Steps β) :
    (peek ls >>= f) ⟨pos, descents⟩ = f (next (ls.drop pos)) ⟨pos, descents⟩ := rfl

theorem moveOn_bind (f : Unit → Steps β) : (moveOn >>= f) ⟨pos, descents⟩ = f () ⟨pos + 1, descents⟩ := rfl

theorem advance_bind (f : Token → Steps β) :
    (advance ls >>= f) ⟨pos, descents⟩ = f (next (ls.drop pos)) ⟨pos + 1, descents⟩ := rfl

theorem stepBack_bind (f : Unit → Steps β) :
    (stepBack >>= f) ⟨pos + 1, descents⟩ = f () ⟨pos, descents⟩ := rfl

theorem leave_bind (f : Unit → Steps β) : (leave >>= f) ⟨pos, descents + 1⟩ = f () ⟨pos, descents⟩ := rfl

theorem eat_bind (f : Bool → Steps β) :
    (eat ls token >>= f) ⟨pos, descents⟩ =
      if next (ls.drop pos) = token then f true ⟨pos + 1, descents⟩ else f false ⟨pos, descents⟩ := by
  unfold eat
  rw [step_bind, peek_bind]
  split <;> rfl

theorem refuse_eq (hpos : pos < ls.length) (cause : Malformation) :
    (refuse ls cause ⟨pos, descents⟩ : Except Stop (α × Cursor)) =
      .error (.fault (.malformed cause (Lexeme.nextOffset (ls.drop pos)))) := by
  unfold refuse
  rw [List.getElem?_eq_getElem hpos, List.drop_eq_getElem_cons hpos]
  rfl

theorem unexpected_eq (hpos : pos < ls.length) :
    (unexpected ls ⟨pos, descents⟩ : Except Stop (α × Cursor)) =
      .error (.fault (Lexeme.unexpected (ls.drop pos))) := by
  unfold unexpected Lexeme.unexpected
  rw [peek_bind]
  cases next (ls.drop pos) <;> exact refuse_eq hpos _

theorem closed_eq (bracket : Bracket) (value : α) (ts : List Lexeme) :
    closed bracket value ts =
      if next ts = .closing bracket then .ok (value, ts.tail) else .error (Lexeme.unexpected ts) := by
  cases ts <;> rfl

/-- The readers where so many descents are under way. -/
def readers (descents : Nat) : Descent := descent (maxDepth - descents)

/-- The readers that one descent more leads to. -/
def below (descents : Nat) : Option Descent :=
  if descents < maxDepth then some (readers (descents + 1)) else none

theorem readers_eq (descents : Nat) :
    readers descents =
      ⟨Expr.expression (below descents), Expr.unaryOrPower (below descents) Precedence.operand⟩ := by
  unfold below
  by_cases hleft : descents < maxDepth
  · have hdepth : maxDepth - descents = maxDepth - (descents + 1) + 1 := by omega
    rw [if_pos hleft, readers, hdepth]
    rfl
  · have hdepth : maxDepth - descents = 0 := by omega
    rw [if_neg hleft, readers, hdepth]
    rfl

open Parsed (ofTree ofTrees deepest exprs)

/-- What the parser comes to is as said where the reader goes on, and is a fault where the reader has it. -/
inductive Tallies (Q : α → Cursor → Except Fault β → Prop) :
    Except Stop (α × Cursor) → Except Fault β → Prop where
  | ok {value : α} {s : Cursor} {y : Except Fault β} (said : Q value s y) : Tallies Q (.ok (value, s)) y
  | fault (fault : Fault) : Tallies Q (.error (.fault fault)) (.error fault)

/-- The place that is reached is `start` or behind it and not past the last lexeme, what is left there is
what the reader leaves, and `descents` are under way. The parser carries `carry value` where the reader
returns `value`. -/
inductive Reached (ls : List Lexeme) (start descents : Nat) (carry : β → α) :
    α → Cursor → Except Fault (β × List Lexeme) → Prop where
  | place {value : β} {pos : Nat} (start_le : start ≤ pos) (lt_length : pos < ls.length) :
      Reached ls start descents carry (carry value) ⟨pos, descents⟩ (.ok (value, ls.drop pos))

/-- What a round of a loop leads to. Behind it the rest of the loop is left to do, unless it was the last. -/
inductive Turned (ls : List Lexeme) (loop : β → List Lexeme → Except Fault (β × List Lexeme))
    (start descents : Nat) (carry : β → α) : Round α → Cursor → Except Fault (β × List Lexeme) → Prop where
  | again {value : β} {pos : Nat} (start_lt : start < pos) (lt_length : pos < ls.length) :
      Turned ls loop start descents carry (.again (carry value)) ⟨pos, descents⟩ (loop value (ls.drop pos))
  | last {value : β} {pos : Nat} (start_lt : start < pos) (lt_length : pos < ls.length) :
      Turned ls loop start descents carry (.last (carry value)) ⟨pos, descents⟩ (.ok (value, ls.drop pos))
  | done {value : β} {pos : Nat} (start_le : start ≤ pos) (lt_length : pos < ls.length) :
      Turned ls loop start descents carry (.done (carry value)) ⟨pos, descents⟩ (.ok (value, ls.drop pos))

namespace Tallies

variable {carry : β → α} {loop : β → List Lexeme → Except Fault (β × List Lexeme)}
  {P : γ → Cursor → Except Fault δ → Prop}

theorem reached (value : β) (hstart : start ≤ pos) (hpos : pos < ls.length) :
    Tallies (Reached ls start descents carry) ((pure (carry value) : Steps α) ⟨pos, descents⟩)
      (.ok (value, ls.drop pos)) :=
  .ok (.place hstart hpos)

theorem done (value : β) (hpos : pos < ls.length) :
    Tallies (Turned ls loop pos descents carry)
      ((pure (.done (carry value)) : Steps (Round α)) ⟨pos, descents⟩) (.ok (value, ls.drop pos)) :=
  .ok (.done (Nat.le_refl pos) hpos)

theorem again {found : α} (value : β) (hfound : found = carry value) (hstart : start < pos)
    (hpos : pos < ls.length) :
    Tallies (Turned ls loop start descents carry)
      ((pure (.again found) : Steps (Round α)) ⟨pos, descents⟩) (loop value (ls.drop pos)) := by
  rw [hfound]
  exact .ok (.again hstart hpos)

theorem last {found : α} (value : β) (hfound : found = carry value) (hstart : start < pos)
    (hpos : pos < ls.length) :
    Tallies (Turned ls loop start descents carry)
      ((pure (.last found) : Steps (Round α)) ⟨pos, descents⟩) (.ok (value, ls.drop pos)) := by
  rw [hfound]
  exact .ok (.last hstart hpos)

theorem back {start' : Nat} {x : Except Stop (α × Cursor)} {y : Except Fault (β × List Lexeme)}
    (h : Tallies (Reached ls start descents carry) x y) (hstart : start' ≤ start) :
    Tallies (Reached ls start' descents carry) x y := by
  cases h with
  | fault fault => exact .fault fault
  | ok said =>
    cases said with
    | place hle hpos => exact .ok (.place (Nat.le_trans hstart hle) hpos)

theorem unexpected (hpos : pos < ls.length) :
    Tallies P (Counting.unexpected ls ⟨pos, descents⟩) (.error (Lexeme.unexpected (ls.drop pos))) := by
  rw [unexpected_eq hpos]
  exact .fault _

/-- The height that a new node is checked by is that of its tree. -/
theorem node {below : Nat} {e : Expr} (hheight : below + 1 = e.height) (hstart : start ≤ pos)
    (hpos : pos < ls.length) :
    Tallies (Reached ls start descents ofTree) (Counting.node ls below e ⟨pos, descents⟩)
      (keep e (ls.drop pos)) := by
  unfold Counting.node keep
  rw [hheight]
  by_cases hlow : e.height ≤ maxDepth
  · rw [if_pos hlow, if_neg (Nat.not_lt.2 hlow)]
    exact .reached e hstart hpos
  · rw [if_neg hlow, if_pos (Nat.lt_of_not_le hlow), refuse_eq hpos]
    exact .fault _

theorem nodeOver (es : List Expr) (make : List Expr → Expr)
    (hheight : Expr.heightOfList es + 1 = (make es).height) (hstart : start ≤ pos) (hpos : pos < ls.length) :
    Tallies (Reached ls start descents ofTree)
      (Counting.node ls (deepest (ofTrees es)) (make (exprs (ofTrees es))) ⟨pos, descents⟩)
      (keep (make es) (ls.drop pos)) := by
  rw [Parsed.deepest_ofTrees, Parsed.exprs_ofTrees]
  exact .node hheight hstart hpos

/-- A step of the parser and of the reader, before others that tally. -/
theorem bind {x : Steps α} {f : α → Steps γ} {s : Cursor} {y : Except Fault (β × List Lexeme)}
    {g : β × List Lexeme → Except Fault δ} (hx : Tallies (Reached ls start descents carry) (x s) y)
    (hf : ∀ value pos, start ≤ pos → pos < ls.length →
      Tallies P (f (carry value) ⟨pos, descents⟩) (g (value, ls.drop pos))) :
    Tallies P ((x >>= f) s) (y >>= g) := by
  rw [step_bind]
  generalize x s = found at hx
  cases hx with
  | fault fault => exact .fault fault
  | ok said =>
    cases said with
    | place hstart hpos => exact hf _ _ hstart hpos

/-- A lexeme that is passed if it comes next, and the ways in which the reader goes on with it and without. -/
theorem eat {f : Bool → Steps γ} {y y' : Except Fault δ} (hends : Ends ls) (hpos : pos < ls.length)
    (hne : token ≠ .eof)
    (htaken : next (ls.drop pos) = token → pos + 1 < ls.length → Tallies P (f true ⟨pos + 1, descents⟩) y)
    (hother : next (ls.drop pos) ≠ token → Tallies P (f false ⟨pos, descents⟩) y') :
    Tallies P ((Counting.eat ls token >>= f) ⟨pos, descents⟩)
      (if next (ls.drop pos) = token then y else y') := by
  rw [eat_bind]
  by_cases hnext : next (ls.drop pos) = token
  · rw [if_pos hnext, if_pos hnext]
    exact htaken hnext (hends.lt_length hpos (by rwa [hnext]))
  · rw [if_neg hnext, if_neg hnext]
    exact hother hnext

/-- A step that is a descent. The count that it adds is taken down behind it. -/
theorem descent {x : Steps α} {f : α → Steps γ} {y : Descent → Except Fault (β × List Lexeme)}
    {g : β × List Lexeme → Except Fault δ} (hpos : pos < ls.length)
    (hx : Tallies (Reached ls start (descents + 1) carry) (x ⟨pos, descents + 1⟩)
      (y (readers (descents + 1))))
    (hf : ∀ value place, start ≤ place → place < ls.length →
      Tallies P (f (carry value) ⟨place, descents⟩) (g (value, ls.drop place))) :
    Tallies P
      ((enter ls >>= fun _ => x >>= fun value => leave >>= fun _ => f value) ⟨pos, descents⟩)
      (descend (below descents) (ls.drop pos) >>= fun inner => y inner >>= g) := by
  have hinside : Tallies P ((x >>= fun value => leave >>= fun _ => f value) ⟨pos, descents + 1⟩)
      (y (readers (descents + 1)) >>= g) := by
    apply hx.bind
    intro value place hstart hless
    rw [leave_bind]
    exact hf value place hstart hless
  rw [step_bind]
  unfold enter below
  dsimp only
  by_cases hleft : descents < maxDepth
  · rw [if_pos hleft, if_neg (Nat.not_lt.2 hleft)]
    exact hinside
  · rw [if_neg hleft, if_pos (by omega), refuse_eq hpos]
    exact .fault _

theorem expect {bracket : Bracket} {value : β} {f : Unit → Steps γ} {g : β × List Lexeme → Except Fault δ}
    (hends : Ends ls) (hpos : pos < ls.length)
    (h : pos + 1 < ls.length → Tallies P (f () ⟨pos + 1, descents⟩) (g (value, ls.drop (pos + 1)))) :
    Tallies P ((Counting.expect ls (.closing bracket) >>= f) ⟨pos, descents⟩)
      (closed bracket value (ls.drop pos) >>= g) := by
  rw [step_bind]
  unfold Counting.expect
  rw [eat_bind, closed_eq]
  by_cases hclosing : next (ls.drop pos) = .closing bracket
  · rw [if_pos hclosing, if_pos hclosing, List.tail_drop]
    exact h (hends.lt_length hpos (by rw [hclosing]; simp))
  · rw [if_neg hclosing, if_neg hclosing, if_neg Bool.false_ne_true, unexpected_eq hpos]
    exact .fault _

/-- A reader takes lexemes, and so do the steps that tally with it. -/
theorem strict {x : Except Stop (α × Cursor)} {y : Except Fault (Reading β (ls.drop pos).length)}
    (h : Tallies (Reached ls start descents carry) x (outcome y)) :
    Tallies (Reached ls (pos + 1) descents carry) x (outcome y) := by
  generalize hfound : outcome y = found at h
  cases h with
  | fault fault => exact .fault fault
  | ok said =>
    cases said with
    | place _ hplace =>
      refine .ok (.place ?_ hplace)
      cases y with
      | error fault => cases hfound
      | ok reading =>
        obtain ⟨value, left, hshort⟩ := reading
        cases hfound
        rw [List.length_drop, List.length_drop] at hshort
        omega

/-- What holds of each round holds of the loop. Fuel for the lexemes that are left is enough, since every
round takes one. -/
theorem rounds {body : α → Steps (Round α)}
    (hbody : ∀ value pos, start ≤ pos → pos < ls.length →
      Tallies (Turned ls loop pos descents carry) (body (carry value) ⟨pos, descents⟩)
        (loop value (ls.drop pos)))
    (value : β) (hstart : start ≤ pos) (hpos : pos < ls.length) (hfuel : ls.length - pos ≤ fuel) :
    Tallies (Reached ls pos descents carry) (Counting.rounds body fuel (carry value) ⟨pos, descents⟩)
      (loop value (ls.drop pos)) := by
  induction fuel generalizing value pos with
  | zero => omega
  | succ fuel ih =>
    have hround := hbody value pos hstart hpos
    unfold Counting.rounds
    generalize body (carry value) ⟨pos, descents⟩ = found at hround
    generalize loop value (ls.drop pos) = y at hround
    cases hround with
    | fault fault => exact .fault fault
    | ok said =>
      cases said with
      | @again value place hless hplace =>
        have hrest := ih value (Nat.le_trans hstart (Nat.le_of_lt hless)) hplace (by omega)
        change Tallies _ (if pos < place then _ else _) _
        rw [if_pos hless]
        exact hrest.back (Nat.le_of_lt hless)
      | @last value place hless hplace =>
        change Tallies _ (if pos < place then _ else _) _
        rw [if_pos hless]
        exact .reached value (Nat.le_of_lt hless) hplace
      | done hle hplace => exact .reached _ hle hplace

end Tallies

end Abacus.Counting
