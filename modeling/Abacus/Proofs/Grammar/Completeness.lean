import Abacus.Proofs.Grammar.Place
import Abacus.Proofs.Grammar.Soundness

namespace Abacus

open Lexeme (next tokens)

def Category.height : (c : Category) → c.Tree → Nat
  | phrase _, e | sentence, e => Expr.height e
  | operands _, es | items, es => Expr.heightOfList es
  | comparisons, es => Expr.heightOfCompared es

/-- It nests no deeper than readers with `depth` descents below them can go, and no tree in it is
too high. -/
def Category.Fits (depth d : Nat) (c : Category) (e : c.Tree) : Prop :=
  d ≤ depth ∧ c.height e ≤ Expr.maxDepth

theorem Category.Fits.part {depth d : Nat} {c c' : Category} {e : c.Tree} {e' : c'.Tree}
    (h : c.Fits depth d e) (hheight : c'.height e' ≤ c.height e) : c'.Fits depth d e' :=
  ⟨h.1, Nat.le_trans hheight h.2⟩

theorem Category.Fits.inner {depth d : Nat} {c c' : Category} {e : c.Tree} {e' : c'.Tree}
    (h : c.Fits (depth + 1) (d + 1) e) (hheight : c'.height e' ≤ c.height e) :
    c'.Fits depth d e' :=
  ⟨Nat.le_of_succ_le_succ h.1, Nat.le_trans hheight h.2⟩

theorem Category.Fits.pos {depth d : Nat} {c : Category} {e : c.Tree}
    (h : c.Fits depth (d + 1) e) : 0 < depth :=
  Nat.lt_of_lt_of_le (Nat.zero_lt_succ d) h.1

/-- What comes next belongs to no primary or power that ends here. -/
def Detached (ts : List Lexeme) : Prop :=
  (∀ bracket, next ts ≠ .opening bracket) ∧ next ts ≠ .symbol .dot ∧ next ts ≠ .symbol .doubleStar

/-- What comes next belongs to no expression that ends here. -/
def Closes (ts : List Lexeme) : Prop := Detached ts ∧ Link.ofToken? (next ts) = none

theorem Link.precedence_le_least (link : Link) : link.precedence ≤ link.least := by
  cases link with
  | arithmetic op => exact Nat.le_refl _
  | connective op | comparison op => exact Nat.le_succ _

theorem Admits.tighter {p q : Phrase} {ts : List Lexeme} (h : Admits p ts)
    (hle : p.precedence ≤ q.precedence) : Admits q ts :=
  fun link hlink => Nat.le_trans (h link hlink) hle

theorem Admits.stops {p : Phrase} {ts : List Lexeme} (h : Admits p ts) :
    Stops (p.precedence + 1) ts :=
  fun link hlink => Nat.lt_succ_of_le (Nat.le_trans link.precedence_le_least (h link hlink))

/-- Behind a whole negation there is no comparison left, so a `not` before it ends there too. -/
theorem Admits.stops_negation {ts : List Lexeme} (h : Admits .negation ts) :
    Stops Precedence.not ts := by
  intro link hlink
  have hleast := h link hlink
  cases link with
  | arithmetic op => cases op <;> exact absurd hleast (by decide)
  | connective op => cases op <;> decide
  | comparison op => exact absurd hleast (by decide : ¬Precedence.comparison + 1 ≤ Precedence.not)

theorem Admits.not_connective {op : Connective} {ts : List Lexeme} (h : Admits op.chain ts) :
    Link.ofToken? (next ts) ≠ some (.connective op) := by
  intro hlink
  have hleast : op.precedence + 1 ≤ op.chain.precedence := h _ hlink
  rw [op.precedence_chain] at hleast
  exact Nat.not_succ_le_self _ hleast

theorem Admits.not_comparison {ts : List Lexeme} (h : Admits .comparison ts) (op : Comparison) :
    Link.ofToken? (next ts) ≠ some (.comparison op) := by
  intro hlink
  have hleast : Precedence.comparison + 1 ≤ Precedence.comparison := h _ hlink
  exact Nat.not_succ_le_self _ hleast

theorem detached_of_link {ts : List Lexeme} {link : Link}
    (h : Link.ofToken? (next ts) = some link) : Detached ts := by
  refine ⟨?_, ?_, ?_⟩
  · intro bracket hnext
    rw [hnext] at h
    cases h
  · intro hnext
    rw [hnext] at h
    cases h
  · intro hnext
    rw [hnext] at h
    cases h

theorem Closes.admits {ts : List Lexeme} (h : Closes ts) (p : Phrase) : Admits p ts := by
  intro link hlink
  rw [h.2] at hlink
  cases hlink

theorem Closes.stops {ts : List Lexeme} (h : Closes ts) (least : Nat) : Stops least ts := by
  intro link hlink
  rw [h.2] at hlink
  cases hlink

theorem closes_closing {bracket : Bracket} {ts : List Lexeme} (h : next ts = .closing bracket) :
    Closes ts := by
  unfold Closes Detached
  rw [h]
  exact ⟨⟨by simp, by simp, by simp⟩, rfl⟩

theorem closes_comma {ts : List Lexeme} (h : next ts = .symbol .comma) : Closes ts := by
  unfold Closes Detached
  rw [h]
  exact ⟨⟨by simp, by simp, by simp⟩, rfl⟩

theorem closes_eof {ts : List Lexeme} (h : next ts = .eof) : Closes ts := by
  unfold Closes Detached
  rw [h]
  exact ⟨⟨by simp, by simp, by simp⟩, rfl⟩

namespace Expr

variable {α β : Type} {fits : Prop} {depth : Nat}

def TooDeep (x : Except Fault α) : Prop :=
  ∃ offset, x = .error (.malformed .nestedTooDeeply offset)

/-- The same result, or the refusal of what does not fit. -/
def Agrees (fits : Prop) (x y : Except Fault α) : Prop := x = y ∨ ¬fits ∧ TooDeep x

namespace Agrees

variable {x y z : Except Fault α}

theorem refl : Agrees fits x x := .inl rfl

theorem of_eq (h : x = y) : Agrees fits x y := .inl h

theorem trans (hxy : Agrees fits x y) (hyz : Agrees fits y z) : Agrees fits x z := by
  rcases hxy with rfl | hdeep
  · exact hyz
  · exact .inr hdeep

theorem mono {fits' : Prop} (h : Agrees fits x y) (himp : fits' → fits) : Agrees fits' x y := by
  rcases h with heq | ⟨hfits, hdeep⟩
  · exact .inl heq
  · exact .inr ⟨fun hfits' => hfits (himp hfits'), hdeep⟩

theorem bind {f : α → Except Fault β} {w : Except Fault β} (hx : Agrees fits x y)
    (hf : Agrees fits (y >>= f) w) : Agrees fits (x >>= f) w := by
  rcases hx with rfl | ⟨hfits, offset, rfl⟩
  · exact hf
  · exact .inr ⟨hfits, offset, rfl⟩

/-- Goes on from a value that is read. -/
theorem step {f : α → Except Fault β} {w : Except Fault β} {a : α} (hx : Agrees fits x (.ok a))
    (hf : Agrees fits (f a) w) : Agrees fits (x >>= f) w :=
  hx.bind hf

theorem keep {e : Expr} {rest : List Lexeme} (h : fits → e.height ≤ maxDepth) :
    Agrees fits (keep e rest) (.ok (e, rest)) := by
  unfold Expr.keep
  split
  · exact refl
  · rename_i hhigh
    exact .inr ⟨fun hfits => hhigh (h hfits), _, rfl⟩

theorem descend {f : Descent → Except Fault α} {ts : List Lexeme} (hpos : fits → 0 < depth)
    (h : ∀ n, depth = n + 1 → Agrees fits (f (descent n)) z) :
    Agrees fits (descend (innerDescent depth) ts >>= f) z := by
  cases depth with
  | zero => exact .inr ⟨fun hfits => absurd (hpos hfits) (Nat.lt_irrefl 0), _, rfl⟩
  | succ n => exact h n rfl

end Agrees

theorem climb_of_stops {below : Option Descent} {least : Nat} {left : Expr} {ts : List Lexeme}
    (h : Stops least ts) : outcome (climb below least left ts) = .ok (left, ts) := by
  rw [outcome_climb]
  cases ts with
  | nil => rfl
  | cons lexeme rest =>
    dsimp only
    cases hlink : Link.ofToken? lexeme.token with
    | none => rfl
    | some link =>
      dsimp only
      rw [if_pos (h link hlink)]

theorem climb_of_link {below : Option Descent} {least : Nat} {left : Expr} {lexeme : Lexeme}
    {link : Link} (hlink : Link.ofToken? lexeme.token = some link) (hle : least ≤ link.precedence)
    (rest : List Lexeme) :
    outcome (climb below least left (lexeme :: rest)) =
      outcome (extend below left link lexeme rest) >>= fun (joined, after) =>
        outcome (climb below least joined after) := by
  rw [outcome_climb]
  dsimp only
  rw [hlink]
  dsimp only
  rw [if_neg (Nat.not_lt_of_le hle)]

theorem trailers_of_detached {below : Option Descent} {target : Expr} {ts : List Lexeme}
    (hround : next ts ≠ .opening .round) (hsquare : next ts ≠ .opening .square)
    (hdot : next ts ≠ .symbol .dot) : outcome (trailers below target ts) = .ok (target, ts) := by
  rw [outcome_trailers]
  split
  · rename_i h
    exact absurd h hround
  · rename_i h
    exact absurd h hsquare
  · rename_i h
    exact absurd h hdot
  · rfl

/-- What the reader of a phrase makes of one that stands at the front. -/
def ReadsPhrase (depth : Nat) (fits : Prop) (us rest : List Lexeme) (e : Expr) : Phrase → Prop
  | .atom => Agrees fits (outcome (atom (innerDescent depth) (us ++ rest))) (.ok (e, rest))
  | .primary =>
    Agrees fits (outcome (primary (innerDescent depth) (us ++ rest)))
      (outcome (trailers (innerDescent depth) e rest))
  | .power =>
    Detached rest →
      Agrees fits (outcome (power (innerDescent depth) (us ++ rest))) (.ok (e, rest))
  | .signed =>
    Detached rest → ∀ least,
      Agrees fits (outcome (unaryOrPower (innerDescent depth) least (us ++ rest))) (.ok (e, rest))
  | p =>
    Detached rest → Admits p rest → ∀ least, least ≤ p.precedence →
      Agrees fits (outcome (expression (innerDescent depth) least (us ++ rest)))
        (outcome (climb (innerDescent depth) least e rest))

/-- What the reader of a category makes of it when it stands at the front. -/
def Reads (depth : Nat) (fits : Prop) (us rest : List Lexeme) : (c : Category) → c.Tree → Prop
  | .phrase p, e => ReadsPhrase depth fits us rest e p
  | .operands op, es =>
    Detached rest → Admits op.chain rest →
      Agrees fits (outcome (connectedTo (descent depth) op (us ++ rest))) (.ok (es, rest))
  | .comparisons, es =>
    Detached rest → Admits .comparison rest → ∀ op lexeme vs, us = lexeme :: vs →
      lexeme.token = .symbol op.symbol →
      Agrees fits (outcome (comparedTo (descent depth) op (vs ++ rest))) (.ok (es, rest))
  | .items, es =>
    (∀ bracket, next rest = .closing bracket →
      Agrees fits (outcome (items (descent depth) bracket (us ++ rest))) (.ok (es, rest.tail))) ∧
    (next rest = .eof → ∀ comma : Lexeme, comma.token = .symbol .comma →
      Agrees fits (outcome (furtherItems (descent depth) (comma :: (us ++ rest)))) (.ok (es, rest)))
  | .sentence, e =>
    next rest = .eof → depth = maxDepth → Agrees fits (sentence (us ++ rest)) (.ok (e, rest))

variable {us vs rest : List Lexeme} {e f : Expr} {es : List Expr}

theorem ReadsPhrase.mono {fits' : Prop} {p : Phrase} (h : ReadsPhrase depth fits us rest e p)
    (himp : fits' → fits) : ReadsPhrase depth fits' us rest e p := by
  cases p with
  | atom | primary => exact Agrees.mono h himp
  | power => exact fun hdetached => (h hdetached).mono himp
  | signed => exact fun hdetached least => (h hdetached least).mono himp
  | _ => exact fun hdetached hadmits least hle => (h hdetached hadmits least hle).mono himp

/-- Whatever takes signs goes on with the operators behind it. -/
theorem ReadsPhrase.expression {p : Phrase} (h : ReadsPhrase depth fits us rest e p)
    (hp : p.precedence ≤ Precedence.operand) (hdetached : Detached rest) (hadmits : Admits p rest)
    {least : Nat} (hle : least ≤ p.precedence) :
    Agrees fits (outcome (expression (innerDescent depth) least (us ++ rest)))
      (outcome (climb (innerDescent depth) least e rest)) := by
  cases p with
  | atom | primary | power => exact absurd hp (by decide)
  | signed =>
    rw [outcome_expression]
    exact (h hdetached least).step .refl
  | _ => exact h hdetached hadmits least hle

/-- A phrase behind which no operator can be taken is read to its end. -/
theorem ReadsPhrase.whole {p : Phrase} (h : ReadsPhrase depth fits us rest e p)
    (hp : p.precedence ≤ Precedence.operand) (hdetached : Detached rest) (hadmits : Admits p rest)
    {least : Nat} (hle : least ≤ p.precedence) (hstops : Stops least rest) :
    Agrees fits (outcome ((descent depth).expression least (us ++ rest))) (.ok (e, rest)) := by
  rw [descent_eq]
  exact (h.expression hp hdetached hadmits hle).trans (.of_eq (climb_of_stops hstops))

theorem ReadsPhrase.closed (h : ReadsPhrase depth fits us rest e .disjunction)
    (hcloses : Closes rest) :
    Agrees fits (outcome ((descent depth).expression Precedence.or (us ++ rest))) (.ok (e, rest)) :=
  h.whole (by decide) hcloses.1 (hcloses.admits _) (Nat.le_refl _) (hcloses.stops _)

theorem ReadsPhrase.operand (h : ReadsPhrase depth fits us rest e .signed)
    (hdetached : Detached rest) :
    Agrees fits (outcome ((descent depth).operand (us ++ rest))) (.ok (e, rest)) := by
  rw [descent_eq]
  exact h hdetached _

theorem ReadsPhrase.primary (h : ReadsPhrase depth fits us rest e .primary)
    (hround : next rest ≠ .opening .round) (hsquare : next rest ≠ .opening .square)
    (hdot : next rest ≠ .symbol .dot) :
    Agrees fits (outcome (primary (innerDescent depth) (us ++ rest))) (.ok (e, rest)) :=
  Agrees.trans h (.of_eq (trailers_of_detached hround hsquare hdot))

/-- A phrase without a sign is read as a power. -/
theorem outcome_unaryOrPower_of_derives {d : Nat} {p : Phrase} (h : Derives d (.phrase p) (tokens us) e)
    (hp : p.place = .atom) (below : Option Descent) (least : Nat) :
    outcome (unaryOrPower below least (us ++ rest)) = outcome (power below (us ++ rest)) := by
  obtain ⟨t, ts, htokens, hafter⟩ := h.head
  cases us with
  | nil => cases htokens
  | cons lexeme us =>
    rw [Lexeme.tokens_cons] at htokens
    cases htokens
    rw [hp] at hafter
    rw [List.cons_append, outcome_unaryOrPower, Place.ofToken?_eq_none_of_after_atom hafter]

theorem reads_looser {d : Nat} {p q : Phrase} (step : p.tighter? = some q)
    (halone : Derives d (.phrase q) (tokens us) e) (h : ReadsPhrase depth fits us rest e q) :
    ReadsPhrase depth fits us rest e p := by
  have hprecedence := Phrase.precedence_tighter step
  cases p with
  | atom => cases step
  | primary =>
    cases step
    unfold ReadsPhrase
    rw [outcome_primary]
    exact Agrees.step h .refl
  | power =>
    cases step
    intro hdetached
    rw [outcome_power]
    apply (h.primary (hdetached.1 _) (hdetached.1 _) hdetached.2.1).step
    dsimp only
    rw [if_neg hdetached.2.2]
    exact .refl
  | signed =>
    cases step
    intro hdetached least
    rw [outcome_unaryOrPower_of_derives halone rfl]
    exact h hdetached
  | binary level =>
    intro hdetached hadmits least hle
    have hq : q.precedence ≤ Precedence.operand := by
      cases step
      cases level <;> decide
    exact h.expression hq hdetached (hadmits.tighter (by omega)) (by omega)
  | _ =>
    cases step
    intro hdetached hadmits least hle
    exact h.expression (by decide) hdetached (hadmits.tighter (by decide))
      (Nat.le_trans hle (by decide))

theorem reads_binary {level : Level} {op : BinaryOp} (mem : op ∈ level.operators) {lexeme : Lexeme}
    (htoken : lexeme.token = .symbol op.symbol) (hpos : fits → 0 < depth)
    (hheight : fits → (binary op e f).height ≤ maxDepth)
    (left : ReadsPhrase depth fits us (lexeme :: (vs ++ rest)) e (.binary level))
    (right : ∀ n, depth = n + 1 → ReadsPhrase n fits vs rest f level.operand) :
    ReadsPhrase depth fits (us ++ lexeme :: vs) rest (binary op e f) (.binary level) := by
  intro hdetached hadmits least hle
  have hlink : Link.ofToken? lexeme.token = some (.arithmetic op) := by
    rw [htoken, Link.ofToken?_symbol mem]
  have hprecedence := Level.precedence_of_mem mem
  have hoperand := level.precedence_operand
  have htight : least ≤ (Link.arithmetic op).precedence :=
    Nat.le_trans hle (Nat.le_of_eq hprecedence.symm)
  have hadmitsLeft : Admits (.binary level) (lexeme :: (vs ++ rest)) := by
    intro link h
    rw [next_cons, hlink] at h
    cases h
    exact Nat.le_of_eq hprecedence
  rw [List.append_assoc, List.cons_append]
  apply (left (detached_of_link hlink) hadmitsLeft least hle).trans
  rw [climb_of_link hlink htight]
  refine Agrees.step (a := (binary op e f, rest)) ?_ .refl
  rw [outcome_extend]
  apply Agrees.descend hpos
  intro n hn
  rw [hprecedence, ← hoperand]
  have hadmitsRight : Admits level.operand rest :=
    hadmits.tighter (by rw [hoperand]; exact Nat.le_succ _)
  have hstops : Stops level.operand.precedence rest := by
    rw [hoperand]
    exact hadmits.stops
  apply ((right n hn).whole (by cases level <;> decide) hdetached hadmitsRight (Nat.le_refl _)
    hstops).step
  exact Agrees.keep hheight

theorem reads_lastOperand {op : Connective}
    (last : ReadsPhrase depth fits us rest e op.operand) :
    Reads depth fits us rest (.operands op) [e] := by
  intro hdetached hadmits
  have hoperand := op.precedence_operand
  rw [outcome_connectedTo, ← hoperand]
  have hstops : Stops op.operand.precedence rest := by
    rw [hoperand, ← op.precedence_chain]
    exact hadmits.stops
  have hadmitsLast : Admits op.operand rest :=
    hadmits.tighter (by rw [hoperand, op.precedence_chain]; exact Nat.le_succ _)
  apply (last.whole (by cases op <;> decide) hdetached hadmitsLast (Nat.le_refl _) hstops).step
  dsimp only
  rw [if_neg hadmits.not_connective]
  exact .refl

theorem admits_connective {op : Connective} {lexeme : Lexeme} (h : lexeme.token = op.token)
    (ts : List Lexeme) : Admits op.operand (lexeme :: ts) := by
  intro link hlink
  rw [next_cons, h, Link.ofToken?_connective] at hlink
  cases hlink
  rw [op.precedence_operand]
  exact Nat.le_refl _

theorem reads_operand {op : Connective} {lexeme : Lexeme} (htoken : lexeme.token = op.token)
    (first : ReadsPhrase depth fits us (lexeme :: (vs ++ rest)) e op.operand)
    (others : Reads depth fits vs rest (.operands op) es) :
    Reads depth fits (us ++ lexeme :: vs) rest (.operands op) (e :: es) := by
  intro hdetached hadmits
  have hoperand := op.precedence_operand
  have hlink : Link.ofToken? lexeme.token = some (.connective op) := by
    rw [htoken, Link.ofToken?_connective]
  rw [outcome_connectedTo, ← hoperand, List.append_assoc, List.cons_append]
  have hstops : Stops op.operand.precedence (lexeme :: (vs ++ rest)) := by
    intro link h
    rw [next_cons, hlink] at h
    cases h
    rw [hoperand]
    exact Nat.lt_succ_self _
  apply (first.whole (by cases op <;> decide) (detached_of_link hlink) (admits_connective htoken _)
    (Nat.le_refl _) hstops).step
  dsimp only
  rw [next_cons, if_pos hlink]
  exact Agrees.step (others hdetached hadmits) .refl

theorem reads_connected {op : Connective} {lexeme : Lexeme} (htoken : lexeme.token = op.token)
    (hpos : fits → 0 < depth) (hheight : fits → (connected op (e :: es)).height ≤ maxDepth)
    (first : ReadsPhrase depth fits us (lexeme :: (vs ++ rest)) e op.operand)
    (others : ∀ n, depth = n + 1 → Reads n fits vs rest (.operands op) es) :
    ReadsPhrase depth fits (us ++ lexeme :: vs) rest (connected op (e :: es)) op.chain := by
  have hlink : Link.ofToken? lexeme.token = some (.connective op) := by
    rw [htoken, Link.ofToken?_connective]
  have hread (hdetached : Detached rest) (hadmits : Admits op.chain rest) (least : Nat)
      (hle : least ≤ op.precedence) :
      Agrees fits (outcome (expression (innerDescent depth) least ((us ++ lexeme :: vs) ++ rest)))
        (outcome (climb (innerDescent depth) least (connected op (e :: es)) rest)) := by
    have hoperand := op.precedence_operand
    rw [List.append_assoc, List.cons_append]
    apply (first.expression (by cases op <;> decide) (detached_of_link hlink)
      (admits_connective htoken _) (by omega)).trans
    rw [climb_of_link hlink hle]
    refine Agrees.step (a := (connected op (e :: es), rest)) ?_ .refl
    rw [outcome_extend]
    apply Agrees.descend hpos
    intro n hn
    apply (others n hn hdetached hadmits).step
    exact Agrees.keep hheight
  cases op <;> exact hread

theorem admits_comparison {op : Comparison} {lexeme : Lexeme}
    (h : lexeme.token = .symbol op.symbol) (ts : List Lexeme) :
    Admits (.binary .bitOr) (lexeme :: ts) := by
  intro link hlink
  rw [next_cons, h, Link.ofToken?_comparison] at hlink
  cases hlink
  exact Nat.le_refl _

/-- Further comparisons start with the operator of the first of them. -/
theorem exists_comparison {d : Nat} {ts : List Token} {es : List (Comparison × Expr)}
    (h : Derives d .comparisons ts es) : ∃ op us, ts = .symbol (Comparison.symbol op) :: us := by
  cases h with
  | lastComparison op _ | comparison op _ _ => exact ⟨op, _, rfl⟩

theorem comparison_symbol_injective {op other : Comparison} (h : op.symbol = other.symbol) :
    op = other := by
  have hlink := Link.ofToken?_comparison op
  rw [h, Link.ofToken?_comparison] at hlink
  cases hlink
  rfl

theorem reads_lastComparison {op : Comparison} {lexeme : Lexeme}
    (htoken : lexeme.token = .symbol op.symbol)
    (last : ReadsPhrase depth fits us rest e (.binary .bitOr)) :
    Reads depth fits (lexeme :: us) rest .comparisons [(op, e)] := by
  intro hdetached hadmits other lexeme vs hvs hother
  cases hvs
  rw [htoken] at hother
  cases comparison_symbol_injective (Token.symbol.inj hother)
  rw [outcome_comparedTo]
  apply (last.whole (by decide) hdetached (hadmits.tighter (by decide)) (by decide)
    hadmits.stops).step
  dsimp only
  split
  · rename_i following hlink
    exact absurd hlink (hadmits.not_comparison following)
  · exact .refl

theorem reads_comparison {op following : Comparison} {others : List (Comparison × Expr)}
    {lexeme sign : Lexeme} (htoken : lexeme.token = .symbol op.symbol)
    (hsign : sign.token = .symbol following.symbol)
    (first : ReadsPhrase depth fits us (sign :: (vs ++ rest)) e (.binary .bitOr))
    (hothers : Reads depth fits (sign :: vs) rest .comparisons others) :
    Reads depth fits (lexeme :: (us ++ sign :: vs)) rest .comparisons ((op, e) :: others) := by
  intro hdetached hadmits other lexeme ws hws hother
  cases hws
  rw [htoken] at hother
  cases comparison_symbol_injective (Token.symbol.inj hother)
  have hlink : Link.ofToken? sign.token = some (.comparison following) := by
    rw [hsign, Link.ofToken?_comparison]
  have hstops : Stops (Precedence.comparison + 1) (sign :: (vs ++ rest)) := by
    intro link h
    rw [next_cons, hlink] at h
    cases h
    exact Nat.lt_succ_self _
  rw [outcome_comparedTo, List.append_assoc, List.cons_append]
  apply (first.whole (by decide) (detached_of_link hlink) (admits_comparison hsign _) (by decide)
    hstops).step
  dsimp only
  rw [next_cons, hlink]
  exact Agrees.step (hothers hdetached hadmits following sign vs rfl hsign) .refl

theorem reads_compared {op : Comparison} {others : List (Comparison × Expr)} {lexeme : Lexeme}
    (htoken : lexeme.token = .symbol op.symbol) (hpos : fits → 0 < depth)
    (hheight : fits → (compared e others).height ≤ maxDepth)
    (first : ReadsPhrase depth fits us (lexeme :: (vs ++ rest)) e (.binary .bitOr))
    (hothers : ∀ n, depth = n + 1 → Reads n fits (lexeme :: vs) rest .comparisons others) :
    ReadsPhrase depth fits (us ++ lexeme :: vs) rest (compared e others) .comparison := by
  intro hdetached hadmits least hle
  have hlink : Link.ofToken? lexeme.token = some (.comparison op) := by
    rw [htoken, Link.ofToken?_comparison]
  rw [List.append_assoc, List.cons_append]
  apply (first.expression (by decide) (detached_of_link hlink) (admits_comparison htoken _)
    (Nat.le_trans hle (by decide))).trans
  rw [climb_of_link hlink hle]
  refine Agrees.step (a := (compared e others, rest)) ?_ .refl
  rw [outcome_extend]
  apply Agrees.descend hpos
  intro n hn
  apply (hothers n hn hdetached hadmits op lexeme vs rfl htoken).step
  exact Agrees.keep hheight

theorem reads_not {lexeme : Lexeme} (htoken : lexeme.token = .keyword .not)
    (hpos : fits → 0 < depth) (hheight : fits → (unary .not e).height ≤ maxDepth)
    (operand : ∀ n, depth = n + 1 → ReadsPhrase n fits us rest e .negation) :
    ReadsPhrase depth fits (lexeme :: us) rest (unary .not e) .negation := by
  intro hdetached hadmits least hle
  rw [outcome_expression]
  refine Agrees.step (a := (unary .not e, rest)) ?_ .refl
  rw [List.cons_append, outcome_unaryOrPower, htoken]
  dsimp only [UnaryOp.ofToken?]
  rw [if_pos (show least ≤ Precedence.not from hle)]
  apply Agrees.descend hpos
  intro n hn
  apply ((operand n hn).whole (by decide) hdetached hadmits (Nat.le_refl _)
    hadmits.stops_negation).step
  exact Agrees.keep hheight

theorem reads_signed {op : UnaryOp} (sign : op ≠ .not) {lexeme : Lexeme}
    (htoken : lexeme.token = op.token) (hpos : fits → 0 < depth)
    (hheight : fits → (unary op e).height ≤ maxDepth)
    (operand : ∀ n, depth = n + 1 → ReadsPhrase n fits us rest e .signed) :
    ReadsPhrase depth fits (lexeme :: us) rest (unary op e) .signed := by
  intro hdetached least
  rw [List.cons_append, outcome_unaryOrPower, htoken, UnaryOp.ofToken?_token]
  have hread :
      Agrees fits
        (descend (innerDescent depth) (us ++ rest) >>= fun inner =>
          outcome (inner.operand (us ++ rest)) >>= fun (operand, left) =>
            keep (unary op operand) left)
        (.ok (unary op e, rest)) := by
    apply Agrees.descend hpos
    intro n hn
    apply ((operand n hn).operand hdetached).step
    exact Agrees.keep hheight
  cases op with
  | not => exact absurd rfl sign
  | _ => exact hread

theorem reads_power {lexeme : Lexeme} (htoken : lexeme.token = .symbol .doubleStar)
    (hpos : fits → 0 < depth) (hheight : fits → (binary .pow e f).height ≤ maxDepth)
    (base : ReadsPhrase depth fits us (lexeme :: (vs ++ rest)) e .primary)
    (exponent : ∀ n, depth = n + 1 → ReadsPhrase n fits vs rest f .signed) :
    ReadsPhrase depth fits (us ++ lexeme :: vs) rest (binary .pow e f) .power := by
  intro hdetached
  rw [outcome_power, List.append_assoc, List.cons_append]
  apply (base.primary (by simp [htoken]) (by simp [htoken]) (by simp [htoken])).step
  dsimp only
  rw [next_cons, if_pos htoken]
  apply Agrees.descend hpos
  intro n hn
  apply ((exponent n hn).operand hdetached).step
  exact Agrees.keep hheight

theorem reads_call {lexeme closing : Lexeme} (htoken : lexeme.token = .opening .round)
    (hclosing : closing.token = .closing .round) (hpos : fits → 0 < depth)
    (hheight : fits → (call e es).height ≤ maxDepth)
    (callee : ReadsPhrase depth fits us (lexeme :: (vs ++ closing :: rest)) e .primary)
    (arguments : ∀ n, depth = n + 1 → Reads n fits vs (closing :: rest) .items es) :
    ReadsPhrase depth fits (us ++ lexeme :: vs ++ [closing]) rest (call e es) .primary := by
  unfold ReadsPhrase
  rw [List.append_assoc, List.append_assoc, List.cons_append, List.singleton_append]
  apply Agrees.trans callee
  rw [outcome_trailers, next_cons, htoken]
  apply Agrees.descend hpos
  intro n hn
  apply ((arguments n hn).1 .round hclosing).step
  exact (Agrees.keep hheight).step .refl

theorem reads_subscript {lexeme closing : Lexeme} (htoken : lexeme.token = .opening .square)
    (hclosing : closing.token = .closing .square) (hpos : fits → 0 < depth)
    (hheight : fits → (subscript e f).height ≤ maxDepth)
    (target : ReadsPhrase depth fits us (lexeme :: (vs ++ closing :: rest)) e .primary)
    (index : ∀ n, depth = n + 1 → ReadsPhrase n fits vs (closing :: rest) f .disjunction) :
    ReadsPhrase depth fits (us ++ lexeme :: vs ++ [closing]) rest (subscript e f) .primary := by
  unfold ReadsPhrase
  rw [List.append_assoc, List.append_assoc, List.cons_append, List.singleton_append]
  apply Agrees.trans target
  rw [outcome_trailers, next_cons, htoken]
  apply Agrees.descend hpos
  intro n hn
  apply ((index n hn).closed (closes_closing hclosing)).step
  refine Agrees.step (.of_eq (if_pos hclosing)) ?_
  exact (Agrees.keep hheight).step .refl

theorem reads_member {dot label : Lexeme} {text : String} (hdot : dot.token = .symbol .dot)
    (hlabel : label.token = .name text) (hheight : fits → (member e text).height ≤ maxDepth)
    (target : ReadsPhrase depth fits us (dot :: label :: rest) e .primary) :
    ReadsPhrase depth fits (us ++ [dot, label]) rest (member e text) .primary := by
  unfold ReadsPhrase
  rw [List.append_assoc]
  apply Agrees.trans target
  rw [outcome_trailers, next_cons, hdot]
  dsimp only [List.tail_cons]
  rw [next_cons, hlabel]
  exact (Agrees.keep hheight).step .refl

theorem reads_constant {c : Constant} {lexeme : Lexeme} (htoken : lexeme.token = c.token) :
    ReadsPhrase depth fits [lexeme] rest (constant c) .atom := by
  unfold ReadsPhrase
  rw [List.singleton_append, outcome_atom, htoken, Constant.ofToken?_token]
  exact .refl

theorem reads_name {text : String} {lexeme : Lexeme} (htoken : lexeme.token = .name text) :
    ReadsPhrase depth fits [lexeme] rest (name text) .atom := by
  unfold ReadsPhrase
  rw [List.singleton_append, outcome_atom, htoken]
  exact .refl

theorem outcome_atom_round {lexeme : Lexeme} (htoken : lexeme.token = .opening .round)
    (below : Option Descent) (ts : List Lexeme) :
    outcome (atom below (lexeme :: ts)) = outcome (group below ts) := by
  rw [outcome_atom, htoken]
  rfl

theorem reads_empty {lexeme closing : Lexeme} (htoken : lexeme.token = .opening .round)
    (hclosing : closing.token = .closing .round) :
    ReadsPhrase depth fits [lexeme, closing] rest (tuple []) .atom := by
  unfold ReadsPhrase
  rw [List.cons_append, outcome_atom_round htoken, outcome_group, List.singleton_append, next_cons,
    if_pos hclosing]
  exact .refl

/-- What is derived as a phrase does not start with a token that no operand starts with. -/
theorem next_ne_of_derives {d : Nat} {p : Phrase} (h : Derives d (.phrase p) (tokens us) e)
    {t : Token} (ht : Place.operand.after t = none) : next (us ++ rest) ≠ t := by
  obtain ⟨u, ts, htokens, hafter⟩ := Place.exists_head (Phrase.run_operand h.walks) (by decide)
  cases us with
  | nil => cases htokens
  | cons lexeme us =>
    rw [Lexeme.tokens_cons] at htokens
    cases htokens
    rintro rfl
    rw [List.cons_append, next_cons] at ht
    rw [ht] at hafter
    cases hafter

theorem reads_group {d : Nat} {lexeme closing : Lexeme} (htoken : lexeme.token = .opening .round)
    (hclosing : closing.token = .closing .round) (hpos : fits → 0 < depth)
    (hinner : Derives d (.phrase .disjunction) (tokens us) e)
    (inner : ∀ n, depth = n + 1 → ReadsPhrase n fits us (closing :: rest) e .disjunction) :
    ReadsPhrase depth fits (lexeme :: us ++ [closing]) rest e .atom := by
  unfold ReadsPhrase
  rw [List.append_assoc, List.cons_append, List.singleton_append, outcome_atom_round htoken,
    outcome_group, if_neg (next_ne_of_derives hinner rfl)]
  apply Agrees.descend hpos
  intro n hn
  apply ((inner n hn).closed (closes_closing hclosing)).step
  dsimp only
  rw [next_cons, hclosing, if_neg (by decide)]
  exact .of_eq (if_pos hclosing)

theorem reads_tuple {d : Nat} {lexeme comma closing : Lexeme}
    (htoken : lexeme.token = .opening .round) (hcomma : comma.token = .symbol .comma)
    (hclosing : closing.token = .closing .round) (hpos : fits → 0 < depth)
    (hheight : fits → (tuple (e :: es)).height ≤ maxDepth)
    (hfirst : Derives d (.phrase .disjunction) (tokens us) e)
    (first : ∀ n, depth = n + 1 →
      ReadsPhrase n fits us (comma :: (vs ++ closing :: rest)) e .disjunction)
    (others : ∀ n, depth = n + 1 → Reads n fits vs (closing :: rest) .items es) :
    ReadsPhrase depth fits (lexeme :: us ++ comma :: vs ++ [closing]) rest (tuple (e :: es))
      .atom := by
  unfold ReadsPhrase
  rw [List.append_assoc, List.append_assoc, List.cons_append, List.cons_append,
    List.singleton_append, outcome_atom_round htoken, outcome_group,
    if_neg (next_ne_of_derives hfirst rfl)]
  apply Agrees.descend hpos
  intro n hn
  apply ((first n hn).closed (closes_comma hcomma)).step
  dsimp only
  rw [next_cons, if_pos hcomma]
  apply Agrees.descend hpos
  intro m hm
  apply ((others m hm).1 .round hclosing).step
  exact Agrees.keep hheight

theorem reads_list {lexeme closing : Lexeme} (htoken : lexeme.token = .opening .square)
    (hclosing : closing.token = .closing .square) (hpos : fits → 0 < depth)
    (hheight : fits → (list es).height ≤ maxDepth)
    (inner : ∀ n, depth = n + 1 → Reads n fits us (closing :: rest) .items es) :
    ReadsPhrase depth fits (lexeme :: us ++ [closing]) rest (list es) .atom := by
  unfold ReadsPhrase
  rw [List.append_assoc, List.cons_append, List.singleton_append, outcome_atom, htoken]
  apply Agrees.descend hpos
  intro n hn
  apply ((inner n hn).1 .square hclosing).step
  exact Agrees.keep hheight

theorem outcome_items_of_derives {d : Nat} (h : Derives d (.phrase .disjunction) (tokens us) e)
    (inner : Descent) (bracket : Bracket) :
    outcome (items inner bracket (us ++ rest)) =
      outcome (inner.expression Precedence.or (us ++ rest)) >>= fun (first, left) =>
        if next left = .symbol .comma then
          outcome (items inner bracket left.tail) >>= fun (others, left) => .ok (first :: others, left)
        else closed bracket [first] left := by
  have hnext : next (us ++ rest) ≠ .closing bracket := next_ne_of_derives h rfl
  cases us with
  | nil =>
    obtain ⟨t, ts, htokens, _⟩ := h.head
    cases htokens
  | cons lexeme us =>
    rw [List.cons_append, next_cons] at hnext
    rw [List.cons_append, outcome_items, if_neg hnext]

theorem outcome_furtherItems_of_derives {d : Nat} {comma : Lexeme}
    (hcomma : comma.token = .symbol .comma) (h : Derives d (.phrase .disjunction) (tokens us) e)
    (outermost : Descent) :
    outcome (furtherItems outermost (comma :: (us ++ rest))) =
      outcome (outermost.expression Precedence.or (us ++ rest)) >>= fun (item, left) =>
        outcome (furtherItems outermost left) >>= fun (others, left) => .ok (item :: others, left) := by
  rw [outcome_furtherItems, next_cons, if_pos hcomma, List.tail_cons,
    if_neg (next_ne_of_derives h rfl)]

theorem reads_noItem : Reads depth fits [] rest .items [] := by
  constructor
  · intro bracket hclosing
    obtain ⟨offset, after, rfl⟩ := eq_cons_of_next hclosing (by simp)
    rw [List.nil_append, outcome_items, if_pos rfl]
    exact .refl
  · intro hend comma hcomma
    rw [List.nil_append, outcome_furtherItems, next_cons, if_pos hcomma, List.tail_cons, if_pos hend]
    exact .refl

theorem reads_lastItem {d : Nat} (hlast : Derives d (.phrase .disjunction) (tokens us) e)
    (last : ReadsPhrase depth fits us rest e .disjunction) :
    Reads depth fits us rest .items [e] := by
  constructor
  · intro bracket hclosing
    rw [outcome_items_of_derives hlast]
    apply (last.closed (closes_closing hclosing)).step
    dsimp only
    rw [hclosing, if_neg (by simp)]
    obtain ⟨offset, after, rfl⟩ := eq_cons_of_next hclosing (by simp)
    exact .of_eq (if_pos rfl)
  · intro hend comma hcomma
    rw [outcome_furtherItems_of_derives hcomma hlast]
    apply (last.closed (closes_eof hend)).step
    dsimp only
    rw [outcome_furtherItems, hend, if_neg (by simp)]
    exact .refl

theorem reads_item {d : Nat} {sign : Lexeme} (hsign : sign.token = .symbol .comma)
    (hfirst : Derives d (.phrase .disjunction) (tokens us) e)
    (first : ReadsPhrase depth fits us (sign :: (vs ++ rest)) e .disjunction)
    (others : Reads depth fits vs rest .items es) :
    Reads depth fits (us ++ sign :: vs) rest .items (e :: es) := by
  have hread := first.closed (closes_comma hsign)
  constructor
  · intro bracket hclosing
    rw [List.append_assoc, List.cons_append, outcome_items_of_derives hfirst]
    apply hread.step
    dsimp only
    rw [next_cons, if_pos hsign]
    exact Agrees.step (others.1 bracket hclosing) .refl
  · intro hend comma hcomma
    rw [List.append_assoc, List.cons_append, outcome_furtherItems_of_derives hcomma hfirst]
    apply hread.step
    exact Agrees.step (others.2 hend sign hsign) .refl

theorem reads_single (whole : ReadsPhrase depth fits us rest e .disjunction) :
    Reads depth fits us rest .sentence e := by
  rintro hend rfl
  apply (whole.closed (closes_eof hend)).step
  dsimp only
  rw [hend, if_neg (by simp)]
  exact .refl

theorem reads_bareTuple {sign : Lexeme} (hsign : sign.token = .symbol .comma)
    (hheight : fits → (tuple (e :: es)).height ≤ maxDepth)
    (first : ReadsPhrase depth fits us (sign :: (vs ++ rest)) e .disjunction)
    (others : Reads depth fits vs rest .items es) :
    Reads depth fits (us ++ sign :: vs) rest .sentence (tuple (e :: es)) := by
  rintro hend rfl
  rw [List.append_assoc, List.cons_append]
  apply (first.closed (closes_comma hsign)).step
  dsimp only
  rw [next_cons, if_pos hsign]
  apply (others.2 hend sign hsign).step
  exact Agrees.keep hheight

theorem Reads.mono {fits' : Prop} {c : Category} {e : c.Tree} (h : Reads depth fits us rest c e)
    (himp : fits' → fits) : Reads depth fits' us rest c e := by
  cases c with
  | phrase p => exact ReadsPhrase.mono h himp
  | operands op => exact fun hdetached hadmits => (h hdetached hadmits).mono himp
  | comparisons =>
    exact fun hdetached hadmits op lexeme vs hvs htoken =>
      (h hdetached hadmits op lexeme vs hvs htoken).mono himp
  | items =>
    exact ⟨fun bracket hclosing => (h.1 bracket hclosing).mono himp,
      fun hend comma hcomma => (h.2 hend comma hcomma).mono himp⟩
  | sentence => exact fun hend hdepth => (h hend hdepth).mono himp

theorem Reads.part {d : Nat} {c c' : Category} {e : c.Tree} {e' : c'.Tree}
    (h : Reads depth (c'.Fits depth d e') us rest c' e') (hheight : c'.height e' ≤ c.height e) :
    Reads depth (c.Fits depth d e) us rest c' e' := by
  apply h.mono
  intro hfits
  exact hfits.part hheight

theorem Reads.inner {d : Nat} {c c' : Category} {e : c.Tree} {e' : c'.Tree}
    (h : Reads depth (c'.Fits depth d e') us rest c' e') (hheight : c'.height e' ≤ c.height e) :
    Reads depth (c.Fits (depth + 1) (d + 1) e) us rest c' e' := by
  apply h.mono
  intro hfits
  exact hfits.inner hheight

theorem exists_split {ts vs : List Token} {t : Token} (h : tokens us = ts ++ t :: vs) :
    ∃ before lexeme after, us = before ++ lexeme :: after ∧ tokens before = ts ∧
      lexeme.token = t ∧ tokens after = vs := by
  obtain ⟨before, others, rfl, hbefore, hothers⟩ := List.map_eq_append_iff.1 h
  obtain ⟨lexeme, after, rfl, hlexeme, hafter⟩ := List.map_eq_cons_iff.1 hothers
  exact ⟨before, lexeme, after, rfl, hbefore, hlexeme, hafter⟩

theorem exists_last {ts : List Token} {t : Token} (h : tokens us = ts ++ [t]) :
    ∃ before lexeme, us = before ++ [lexeme] ∧ tokens before = ts ∧ lexeme.token = t := by
  obtain ⟨before, lexeme, after, rfl, hbefore, hlexeme, hafter⟩ := exists_split h
  obtain rfl := List.map_eq_nil_iff.1 hafter
  exact ⟨before, lexeme, rfl, hbefore, hlexeme⟩

theorem reads_of_derives {d : Nat} {c : Category} {ts : List Token} {e : c.Tree}
    (h : Derives d c ts e) (depth : Nat) (us rest : List Lexeme) (hus : tokens us = ts) :
    Reads depth (c.Fits depth d e) us rest c e := by
  induction h generalizing depth us rest with
  | single _ ih => exact reads_single (ih depth us rest hus)
  | bareTuple first others ihfirst ihothers =>
    obtain ⟨before, comma, after, rfl, hbefore, hcomma, hafter⟩ := exists_split hus
    apply reads_bareTuple hcomma (fun hfits => hfits.2)
    · apply (ihfirst depth before _ hbefore).part
      simp only [Category.height, height, heightOfList]
      omega
    · apply (ihothers depth after _ hafter).part
      simp only [Category.height, height, heightOfList]
      omega
  | looser step alone ih =>
    subst hus
    exact reads_looser step alone (ih depth us rest rfl)
  | connected first others ihfirst ihothers =>
    obtain ⟨before, lexeme, after, rfl, hbefore, htoken, hafter⟩ := exists_split hus
    apply reads_connected htoken Category.Fits.pos And.right
    · apply (ihfirst depth before _ hbefore).part
      simp only [Category.height, height, heightOfList]
      omega
    · intro n hn
      subst hn
      apply (ihothers n after _ hafter).inner
      simp only [Category.height, height, heightOfList]
      omega
  | lastOperand last ih =>
    apply reads_lastOperand
    apply (ih depth us rest hus).part
    simp only [Category.height, heightOfList]
    omega
  | operand first others ihfirst ihothers =>
    obtain ⟨before, lexeme, after, rfl, hbefore, htoken, hafter⟩ := exists_split hus
    apply reads_operand htoken
    · apply (ihfirst depth before _ hbefore).part
      simp only [Category.height, heightOfList]
      omega
    · apply (ihothers depth after _ hafter).part
      simp only [Category.height, heightOfList]
      omega
  | not operand ih =>
    obtain ⟨lexeme, after, rfl, htoken, hafter⟩ := List.map_eq_cons_iff.1 hus
    apply reads_not htoken Category.Fits.pos And.right
    intro n hn
    subst hn
    apply (ih n after _ hafter).inner
    simp only [Category.height, height]
    omega
  | compared first others ihfirst ihothers =>
    obtain ⟨op, vs, rfl⟩ := exists_comparison others
    obtain ⟨before, lexeme, after, rfl, hbefore, htoken, hafter⟩ := exists_split hus
    apply reads_compared htoken Category.Fits.pos And.right
    · apply (ihfirst depth before _ hbefore).part
      simp only [Category.height, height]
      omega
    · intro n hn
      subst hn
      apply (ihothers n (lexeme :: after) _ (by rw [Lexeme.tokens_cons, htoken, hafter])).inner
      simp only [Category.height, height]
      omega
  | lastComparison op last ih =>
    obtain ⟨lexeme, after, rfl, htoken, hafter⟩ := List.map_eq_cons_iff.1 hus
    apply reads_lastComparison htoken
    apply (ih depth after rest hafter).part
    simp only [Category.height, heightOfCompared]
    omega
  | comparison op first others ihfirst ihothers =>
    obtain ⟨following, vs, rfl⟩ := exists_comparison others
    obtain ⟨lexeme, tail, rfl, htoken, htail⟩ := List.map_eq_cons_iff.1 hus
    obtain ⟨before, sign, after, rfl, hbefore, hsign, hafter⟩ := exists_split htail
    apply reads_comparison htoken hsign
    · apply (ihfirst depth before _ hbefore).part
      simp only [Category.height, heightOfCompared]
      omega
    · apply (ihothers depth (sign :: after) _ (by rw [Lexeme.tokens_cons, hsign, hafter])).part
      simp only [Category.height, heightOfCompared]
      omega
  | binary mem left right ihleft ihright =>
    obtain ⟨before, lexeme, after, rfl, hbefore, htoken, hafter⟩ := exists_split hus
    apply reads_binary mem htoken Category.Fits.pos And.right
    · apply (ihleft depth before _ hbefore).part
      simp only [Category.height, height]
      omega
    · intro n hn
      subst hn
      apply (ihright n after _ hafter).inner
      simp only [Category.height, height]
      omega
  | signed sign operand ih =>
    obtain ⟨lexeme, after, rfl, htoken, hafter⟩ := List.map_eq_cons_iff.1 hus
    apply reads_signed sign htoken Category.Fits.pos And.right
    intro n hn
    subst hn
    apply (ih n after _ hafter).inner
    simp only [Category.height, height]
    omega
  | power base exponent ihbase ihexponent =>
    obtain ⟨before, lexeme, after, rfl, hbefore, htoken, hafter⟩ := exists_split hus
    apply reads_power htoken Category.Fits.pos And.right
    · apply (ihbase depth before _ hbefore).part
      simp only [Category.height, height]
      omega
    · intro n hn
      subst hn
      apply (ihexponent n after _ hafter).inner
      simp only [Category.height, height]
      omega
  | call callee arguments ihcallee iharguments =>
    obtain ⟨front, closing, rfl, hfront, hclosing⟩ := exists_last hus
    obtain ⟨before, lexeme, inside, rfl, hbefore, htoken, hinside⟩ := exists_split hfront
    apply reads_call htoken hclosing Category.Fits.pos And.right
    · apply (ihcallee depth before _ hbefore).part
      simp only [Category.height, height]
      omega
    · intro n hn
      subst hn
      apply (iharguments n inside _ hinside).inner
      simp only [Category.height, height]
      omega
  | subscript target index ihtarget ihindex =>
    obtain ⟨front, closing, rfl, hfront, hclosing⟩ := exists_last hus
    obtain ⟨before, lexeme, inside, rfl, hbefore, htoken, hinside⟩ := exists_split hfront
    apply reads_subscript htoken hclosing Category.Fits.pos And.right
    · apply (ihtarget depth before _ hbefore).part
      simp only [Category.height, height]
      omega
    · intro n hn
      subst hn
      apply (ihindex n inside _ hinside).inner
      simp only [Category.height, height]
      omega
  | member text target ih =>
    obtain ⟨before, dot, after, rfl, hbefore, hdot, hafter⟩ := exists_split hus
    obtain ⟨label, others, rfl, hlabel, hothers⟩ := List.map_eq_cons_iff.1 hafter
    obtain rfl := List.map_eq_nil_iff.1 hothers
    apply reads_member hdot hlabel (fun hfits => hfits.2)
    apply (ih depth before _ hbefore).part
    simp only [Category.height, height]
    omega
  | constant c =>
    obtain ⟨lexeme, after, rfl, htoken, hafter⟩ := List.map_eq_cons_iff.1 hus
    obtain rfl := List.map_eq_nil_iff.1 hafter
    exact reads_constant htoken
  | name text =>
    obtain ⟨lexeme, after, rfl, htoken, hafter⟩ := List.map_eq_cons_iff.1 hus
    obtain rfl := List.map_eq_nil_iff.1 hafter
    exact reads_name htoken
  | empty =>
    obtain ⟨lexeme, tail, rfl, htoken, htail⟩ := List.map_eq_cons_iff.1 hus
    obtain ⟨closing, after, rfl, hclosing, hafter⟩ := List.map_eq_cons_iff.1 htail
    obtain rfl := List.map_eq_nil_iff.1 hafter
    exact reads_empty htoken hclosing
  | group inner ih =>
    obtain ⟨front, closing, rfl, hfront, hclosing⟩ := exists_last hus
    obtain ⟨lexeme, inside, rfl, htoken, rfl⟩ := List.map_eq_cons_iff.1 hfront
    apply reads_group htoken hclosing Category.Fits.pos inner
    intro n hn
    subst hn
    exact (ih n inside _ rfl).inner (Nat.le_refl _)
  | tuple first others ihfirst ihothers =>
    obtain ⟨front, closing, rfl, hfront, hclosing⟩ := exists_last hus
    obtain ⟨opened, comma, behind, rfl, hopened, hcomma, hbehind⟩ := exists_split hfront
    obtain ⟨lexeme, inside, rfl, htoken, rfl⟩ := List.map_eq_cons_iff.1 hopened
    apply reads_tuple htoken hcomma hclosing Category.Fits.pos And.right first
    · intro n hn
      subst hn
      apply (ihfirst n inside _ rfl).inner
      simp only [Category.height, height, heightOfList]
      omega
    · intro n hn
      subst hn
      apply (ihothers n behind _ hbehind).inner
      simp only [Category.height, height, heightOfList]
      omega
  | list inner ih =>
    obtain ⟨front, closing, rfl, hfront, hclosing⟩ := exists_last hus
    obtain ⟨lexeme, inside, rfl, htoken, hinside⟩ := List.map_eq_cons_iff.1 hfront
    apply reads_list htoken hclosing Category.Fits.pos And.right
    intro n hn
    subst hn
    apply (ih n inside _ hinside).inner
    simp only [Category.height, height]
    omega
  | noItem =>
    obtain rfl := List.map_eq_nil_iff.1 hus
    exact reads_noItem
  | lastItem last ih =>
    subst hus
    apply reads_lastItem last
    apply (ih depth us rest rfl).part
    simp only [Category.height, heightOfList]
    omega
  | item first others ihfirst ihothers =>
    obtain ⟨before, comma, after, rfl, rfl, hcomma, hafter⟩ := exists_split hus
    apply reads_item hcomma first
    · apply (ihfirst depth before _ rfl).part
      simp only [Category.height, heightOfList]
      omega
    · apply (ihothers depth after _ hafter).part
      simp only [Category.height, heightOfList]
      omega

/-- A derivation that fits is what comes out; one that does not may be refused as too deep. -/
theorem ofLexemes_of_derives {d : Nat} {us rest : List Lexeme} {e : Expr}
    (h : Derives d .sentence (tokens us) e) (hend : next rest = .eof) :
    Agrees (d ≤ maxDepth ∧ e.height ≤ maxDepth) (ofLexemes (us ++ rest)) (.ok e) := by
  rw [ofLexemes_eq]
  apply (reads_of_derives h maxDepth us rest rfl hend rfl).step
  dsimp only
  rw [if_pos hend]
  exact .refl

end Expr

end Abacus
