import Abacus.Expr.Descent

namespace Abacus.Expr

open Lexeme (next unexpected tooDeep close)

variable {α β : Type} {m n : Nat}

/-- What was read and what is left. -/
def outcome (x : Except Fault (Reading α n)) : Except Fault (α × List Lexeme) :=
  x.map fun r => (r.value, r.rest)

/-- A new node, if it is not too high. -/
def keep (e : Expr) (rest : List Lexeme) : Except Fault (Expr × List Lexeme) :=
  if e.height ≤ maxDepth then .ok (e, rest) else .error (tooDeep rest)

/-- A part, if a closing bracket follows it. -/
def closed (bracket : Bracket) (value : α) : List Lexeme → Except Fault (α × List Lexeme)
  | [] => .error (unexpected [])
  | lexeme :: rest =>
    if lexeme.token = .closing bracket then .ok (value, rest)
    else .error (unexpected (lexeme :: rest))

@[simp] theorem outcome_ok (r : Reading α n) : outcome (.ok r) = .ok (r.value, r.rest) := rfl

theorem outcome_bind {x : Except Fault (Reading α n)} {f : Reading α n → Except Fault (Reading β m)}
    {g : α × List Lexeme → Except Fault (β × List Lexeme)}
    (h : ∀ value rest short, outcome (f ⟨value, rest, short⟩) = g (value, rest)) :
    outcome (x >>= f) = outcome x >>= g := by
  cases x with
  | error fault => rfl
  | ok r => exact h r.value r.rest r.short

theorem outcome_after {γ : Type} {x : Except Fault γ} {f : γ → Except Fault (Reading β m)}
    {g : γ → Except Fault (β × List Lexeme)} (h : ∀ c, outcome (f c) = g c) :
    outcome (x >>= f) = x >>= g := by
  cases x with
  | error fault => rfl
  | ok c => exact h c

theorem outcome_widen (x : Except Fault (Reading α n)) (h : n ≤ m) :
    outcome (x >>= fun r => return r.widen h) = outcome x := by
  cases x <;> rfl

theorem outcome_map_widen (x : Except Fault (Reading α n)) (f : α → β) (h : n ≤ m) :
    outcome (x >>= fun r => return (r.map f).widen h) =
      outcome x >>= fun (value, rest) => .ok (f value, rest) := by
  cases x <;> rfl

theorem outcome_grow (r : Reading Expr n) : outcome (grow r) = keep r.value r.rest := by
  unfold grow keep
  split <;> rfl

theorem outcome_grow_bind {r : Reading Expr n} {f : Reading Expr n → Except Fault (Reading β m)}
    {g : Expr × List Lexeme → Except Fault (β × List Lexeme)}
    (h : ∀ value rest short, outcome (f ⟨value, rest, short⟩) = g (value, rest)) :
    outcome (grow r >>= f) = keep r.value r.rest >>= g := by
  rw [outcome_bind h, outcome_grow]

theorem outcome_close (bracket : Bracket) (r : Reading α n) :
    outcome (close bracket r) = closed bracket r.value r.rest := by
  obtain ⟨value, rest, short⟩ := r
  cases rest with
  | nil => rfl
  | cons lexeme rest =>
    unfold close
    simp only [closed]
    split <;> rfl

theorem outcome_close_bind {bracket : Bracket} {r : Reading α n}
    {f : Reading α n → Except Fault (Reading β m)}
    {g : α × List Lexeme → Except Fault (β × List Lexeme)}
    (h : ∀ value rest short, outcome (f ⟨value, rest, short⟩) = g (value, rest)) :
    outcome (close bracket r >>= f) = closed bracket r.value r.rest >>= g := by
  rw [outcome_bind h, outcome_close]

theorem closed_map (bracket : Bracket) (value : α) (f : α → β) (rest : List Lexeme) :
    (closed bracket value rest >>= fun (value, rest) => .ok (f value, rest)) =
      closed bracket (f value) rest := by
  cases rest with
  | nil => rfl
  | cons lexeme rest =>
    simp only [closed]
    split <;> rfl

@[simp] theorem next_cons (lexeme : Lexeme) (rest : List Lexeme) :
    next (lexeme :: rest) = lexeme.token := rfl

theorem eq_cons_of_next {ts : List Lexeme} {token : Token} (h : next ts = token)
    (hne : token ≠ .eof) : ∃ offset rest, ts = ⟨token, offset⟩ :: rest := by
  cases ts with
  | nil => exact absurd h.symm hne
  | cons lexeme rest => exact ⟨lexeme.offset, rest, by rw [← h]; rfl⟩

theorem next_ne {ts : List Lexeme} {token : Token} (hne : token ≠ .eof)
    (h : ∀ offset rest, ts ≠ ⟨token, offset⟩ :: rest) : next ts ≠ token := by
  intro hnext
  obtain ⟨offset, rest, hts⟩ := eq_cons_of_next hnext hne
  exact h offset rest hts

theorem outcome_items (inner : Descent) (bracket : Bracket) (lexeme : Lexeme) (rest : List Lexeme) :
    outcome (items inner bracket (lexeme :: rest)) =
      if lexeme.token = .closing bracket then .ok ([], rest)
      else outcome (inner.expression Precedence.or (lexeme :: rest)) >>= fun (first, left) =>
        if next left = .symbol .comma then
          outcome (items inner bracket left.tail) >>= fun (others, left) => .ok (first :: others, left)
        else closed bracket [first] left := by
  rw [items]
  split
  · rfl
  apply outcome_bind
  intro first left short
  dsimp only
  split
  · simp only [next_cons, List.tail_cons, if_true]
    exact outcome_map_widen _ _ _
  · rename_i hcomma
    rw [if_neg (next_ne (by simp) hcomma)]
    rw [← closed_map bracket first ([·])]
    exact outcome_close_bind fun _ _ _ => rfl

theorem outcome_group (below : Option Descent) (ts : List Lexeme) :
    outcome (group below ts) =
      if next ts = .closing .round then .ok (tuple [], ts.tail)
      else
        descend below ts >>= fun inner =>
        outcome (inner.expression Precedence.or ts) >>= fun (first, left) =>
        if next left = .symbol .comma then
          descend below left.tail >>= fun inner =>
          outcome (items inner .round left.tail) >>= fun (others, left) =>
          keep (tuple (first :: others)) left
        else closed .round first left := by
  unfold group
  split
  · rfl
  rename_i hclosing
  rw [if_neg (next_ne (by simp) hclosing)]
  apply outcome_after
  intro inner
  apply outcome_bind
  intro first left short
  dsimp only
  split
  · simp only [next_cons, List.tail_cons, if_true]
    apply outcome_after
    intro inner
    apply outcome_bind
    intro others left short
    exact outcome_grow _
  · rename_i hcomma
    rw [if_neg (next_ne (by simp) hcomma)]
    exact outcome_close _ _

theorem outcome_atom (below : Option Descent) (lexeme : Lexeme) (rest : List Lexeme) :
    outcome (atom below (lexeme :: rest)) =
      match Constant.ofToken? lexeme.token, lexeme.token with
      | some c, _ => .ok (constant c, rest)
      | none, .name text => .ok (name text, rest)
      | none, .opening .round => outcome (group below rest)
      | none, .opening .square =>
        descend below rest >>= fun inner =>
        outcome (items inner .square rest) >>= fun (found, left) => keep (list found) left
      | none, _ => .error (unexpected (lexeme :: rest)) := by
  rw [atom]
  cases Constant.ofToken? lexeme.token with
  | some c => rfl
  | none =>
    cases lexeme.token with
    | opening bracket =>
      cases bracket with
      | round => exact outcome_widen _ _
      | square =>
        apply outcome_after
        intro inner
        apply outcome_bind
        intro found left short
        exact outcome_grow _
    | _ => rfl

theorem outcome_trailers (below : Option Descent) (target : Expr) (ts : List Lexeme) :
    outcome (trailers below target ts) =
      match next ts with
      | .opening .round =>
        descend below ts.tail >>= fun inner =>
        outcome (items inner .round ts.tail) >>= fun (arguments, left) =>
        keep (call target arguments) left >>= fun (applied, left) =>
        outcome (trailers below applied left)
      | .opening .square =>
        descend below ts.tail >>= fun inner =>
        outcome (inner.expression Precedence.or ts.tail) >>= fun (index, left) =>
        closed .square index left >>= fun (index, left) =>
        keep (subscript target index) left >>= fun (applied, left) =>
        outcome (trailers below applied left)
      | .symbol .dot =>
        match next ts.tail with
        | .name text =>
          keep (member target text) ts.tail.tail >>= fun (applied, left) =>
          outcome (trailers below applied left)
        | _ => .error (unexpected ts.tail)
      | _ => .ok (target, ts) := by
  rw [trailers.eq_def]
  split
  · simp only [next_cons, List.tail_cons]
    apply outcome_after
    intro inner
    apply outcome_bind
    intro arguments left short
    apply outcome_grow_bind
    intro applied left short
    exact outcome_widen _ _
  · simp only [next_cons, List.tail_cons]
    apply outcome_after
    intro inner
    apply outcome_bind
    intro index left short
    apply outcome_close_bind
    intro index left short
    apply outcome_grow_bind
    intro applied left short
    exact outcome_widen _ _
  · simp only [next_cons, List.tail_cons]
    apply outcome_grow_bind
    intro applied left short
    exact outcome_widen _ _
  · rename_i hmember
    simp only [next_cons, List.tail_cons]
    split
    · rename_i text h
      obtain ⟨offset, after, rfl⟩ := eq_cons_of_next h (by simp)
      exact absurd rfl (hmember text offset after)
    · rfl
  · rename_i hround hsquare _ hdot
    split
    · exact absurd ‹_› (next_ne (by simp) hround)
    · exact absurd ‹_› (next_ne (by simp) hsquare)
    · exact absurd ‹_› (next_ne (by simp) hdot)
    · rfl

theorem outcome_trailers_dot (below : Option Descent) (target : Expr) {lexeme : Lexeme}
    (h : lexeme.token = .symbol .dot) (ts : List Lexeme) :
    outcome (trailers below target (lexeme :: ts)) =
      match next ts with
      | .name text =>
        keep (member target text) ts.tail >>= fun (applied, left) =>
        outcome (trailers below applied left)
      | _ => .error (unexpected ts) := by
  rw [outcome_trailers, next_cons, h]
  rfl

theorem outcome_primary (below : Option Descent) (ts : List Lexeme) :
    outcome (primary below ts) =
      outcome (atom below ts) >>= fun (target, left) => outcome (trailers below target left) := by
  unfold primary
  apply outcome_bind
  intro target left short
  exact outcome_widen _ _

theorem outcome_power (below : Option Descent) (ts : List Lexeme) :
    outcome (power below ts) =
      outcome (primary below ts) >>= fun (base, left) =>
      if next left = .symbol .doubleStar then
        descend below left.tail >>= fun inner =>
        outcome (inner.operand left.tail) >>= fun (exponent, left) =>
        keep (binary .pow base exponent) left
      else .ok (base, left) := by
  unfold power
  apply outcome_bind
  intro base left short
  dsimp only
  split
  · simp only [next_cons, List.tail_cons, if_true]
    apply outcome_after
    intro inner
    apply outcome_bind
    intro exponent left short
    exact outcome_grow _
  · rename_i hstar
    rw [if_neg (next_ne (by simp) hstar)]
    rfl

theorem outcome_unaryOrPower (below : Option Descent) (least : Nat) (lexeme : Lexeme)
    (rest : List Lexeme) :
    outcome (unaryOrPower below least (lexeme :: rest)) =
      match UnaryOp.ofToken? lexeme.token with
      | none => outcome (power below (lexeme :: rest))
      | some .not =>
        if least ≤ Precedence.not then
          descend below rest >>= fun inner =>
          outcome (inner.expression Precedence.not rest) >>= fun (operand, left) =>
          keep (unary .not operand) left
        else outcome (power below (lexeme :: rest))
      | some op =>
        descend below rest >>= fun inner =>
        outcome (inner.operand rest) >>= fun (operand, left) => keep (unary op operand) left := by
  unfold unaryOrPower
  dsimp only
  cases UnaryOp.ofToken? lexeme.token with
  | none => rfl
  | some op =>
    cases op with
    | not =>
      dsimp only
      split
      · apply outcome_after
        intro inner
        apply outcome_bind
        intro operand left short
        exact outcome_grow _
      · rfl
    | pos | neg | invert =>
      apply outcome_after
      intro inner
      apply outcome_bind
      intro operand left short
      exact outcome_grow _

theorem outcome_connectedTo (inner : Descent) (op : Connective) (ts : List Lexeme) :
    outcome (connectedTo inner op ts) =
      outcome (inner.expression (op.precedence + 1) ts) >>= fun (first, left) =>
      if Link.ofToken? (next left) = some (.connective op) then
        outcome (connectedTo inner op left.tail) >>= fun (others, left) => .ok (first :: others, left)
      else .ok ([first], left) := by
  rw [connectedTo]
  apply outcome_bind
  intro first left short
  cases left with
  | nil => rfl
  | cons lexeme after =>
    by_cases hlink : Link.ofToken? lexeme.token = some (.connective op)
    · simp only [next_cons, List.tail_cons, hlink, if_true]
      exact outcome_map_widen _ _ _
    · simp only [next_cons, hlink, if_false]
      rfl

theorem outcome_comparedTo (inner : Descent) (op : Comparison) (ts : List Lexeme) :
    outcome (comparedTo inner op ts) =
      outcome (inner.expression (Precedence.comparison + 1) ts) >>= fun (first, left) =>
      match Link.ofToken? (next left) with
      | some (.comparison following) =>
        outcome (comparedTo inner following left.tail) >>= fun (others, left) =>
        .ok ((op, first) :: others, left)
      | _ => .ok ([(op, first)], left) := by
  rw [comparedTo]
  apply outcome_bind
  intro first left short
  cases left with
  | nil => rfl
  | cons lexeme after =>
    simp only [next_cons, List.tail_cons]
    cases Link.ofToken? lexeme.token with
    | none => rfl
    | some link =>
      cases link with
      | comparison following => exact outcome_map_widen _ _ _
      | arithmetic | connective => rfl

theorem outcome_extend (below : Option Descent) (left : Expr) (link : Link) (lexeme : Lexeme)
    (rest : List Lexeme) :
    outcome (extend below left link lexeme rest) =
      match link with
      | .arithmetic op =>
        descend below rest >>= fun inner =>
        outcome (inner.expression (op.precedence + 1) rest) >>= fun (right, after) =>
        keep (binary op left right) after
      | .connective op =>
        descend below (lexeme :: rest) >>= fun inner =>
        outcome (connectedTo inner op rest) >>= fun (others, after) =>
        keep (connected op (left :: others)) after
      | .comparison op =>
        descend below (lexeme :: rest) >>= fun inner =>
        outcome (comparedTo inner op rest) >>= fun (others, after) =>
        keep (compared left others) after := by
  unfold extend
  cases link with
  | arithmetic op | connective op | comparison op =>
    apply outcome_after
    intro inner
    apply outcome_bind
    intro found after short
    exact outcome_grow _

theorem outcome_climb (below : Option Descent) (least : Nat) (left : Expr) (ts : List Lexeme) :
    outcome (climb below least left ts) =
      match ts with
      | [] => .ok (left, [])
      | lexeme :: rest =>
        match Link.ofToken? lexeme.token with
        | none => .ok (left, lexeme :: rest)
        | some link =>
          if link.precedence < least then .ok (left, lexeme :: rest)
          else outcome (extend below left link lexeme rest) >>= fun (joined, after) =>
            outcome (climb below least joined after) := by
  rw [climb.eq_def]
  split
  · rfl
  · rename_i lexeme rest
    dsimp only
    cases Link.ofToken? lexeme.token with
    | none => rfl
    | some link =>
      dsimp only
      split
      · rfl
      · apply outcome_bind
        intro joined after short
        exact outcome_widen _ _

theorem outcome_expression (below : Option Descent) (least : Nat) (ts : List Lexeme) :
    outcome (expression below least ts) =
      outcome (unaryOrPower below least ts) >>= fun (first, rest) =>
        outcome (climb below least first rest) := by
  unfold expression
  apply outcome_bind
  intro first rest short
  exact outcome_widen _ _

theorem outcome_furtherItems (outermost : Descent) (ts : List Lexeme) :
    outcome (furtherItems outermost ts) =
      if next ts = .symbol .comma then
        if next ts.tail = .eof then .ok ([], ts.tail)
        else outcome (outermost.expression Precedence.or ts.tail) >>= fun (item, left) =>
          outcome (furtherItems outermost left) >>= fun (others, left) => .ok (item :: others, left)
      else .ok ([], ts) := by
  rw [furtherItems.eq_def]
  split
  · rename_i offset rest
    simp only [next_cons, List.tail_cons, if_true]
    by_cases hend : next rest = .eof
    · simp only [hend, if_true]
      rfl
    · simp only [hend, if_false]
      apply outcome_bind
      intro item left short
      exact outcome_map_widen _ _ _
  · rename_i hcomma
    rw [if_neg (next_ne (by simp) hcomma)]
    rfl

/-- What stands at the front of all lexemes: an expression, or several with commas. -/
def sentence (ts : List Lexeme) : Except Fault (Expr × List Lexeme) :=
  outcome ((descent maxDepth).expression Precedence.or ts) >>= fun (first, left) =>
    if next left = .symbol .comma then
      outcome (furtherItems (descent maxDepth) left) >>= fun (others, left) =>
      keep (tuple (first :: others)) left
    else .ok (first, left)

theorem ofLexemes_eq (ts : List Lexeme) :
    ofLexemes ts = sentence ts >>= fun (whole, left) =>
      if next left = .eof then .ok whole else .error (unexpected left) := by
  unfold ofLexemes sentence
  dsimp only
  cases (descent maxDepth).expression Precedence.or ts with
  | error fault => rfl
  | ok first =>
    obtain ⟨first, left, short⟩ := first
    dsimp only [bind, Except.bind, outcome_ok]
    by_cases hcomma : next left = .symbol .comma
    · simp only [hcomma, if_true]
      cases furtherItems (descent maxDepth) left with
      | error fault => rfl
      | ok others =>
        obtain ⟨others, left, short⟩ := others
        dsimp only [outcome_ok, Reading.map, Reading.widen]
        rw [← outcome_grow (⟨tuple (first :: others), left, by omega⟩ : Reading Expr ts.length)]
        cases grow (⟨tuple (first :: others), left, by omega⟩ : Reading Expr ts.length) <;> rfl
    · simp only [hcomma, if_false]
      rfl

end Abacus.Expr
