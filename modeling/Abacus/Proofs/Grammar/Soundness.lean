import Abacus.Proofs.Grammar.Binding
import Abacus.Proofs.Grammar.Outcome
import Abacus.Proofs.Token.Written

namespace Abacus

namespace Lexeme

/-- Induction along the recursion of the readers, which go on with fewer lexemes. -/
theorem shorter {motive : List Lexeme → Prop}
    (step : ∀ ts, (∀ us, us.length < ts.length → motive us) → motive ts) (ts : List Lexeme) :
    motive ts :=
  (measure List.length).wf.induction ts step

end Lexeme

namespace Expr

open Lexeme (next unexpected tooDeep tokens)

variable {α β γ : Type} {ts : List Lexeme}

/-- A fault at one of the places that reading comes by. -/
def Refused (ts : List Lexeme) (fault : Fault) : Prop :=
  ∃ left, left <:+ ts ∧ (fault = unexpected left ∨ fault = tooDeep left)

/-- A result that is about the tokens it was read from and what is left, or a refusal. -/
def Meets (ts : List Lexeme) (x : Except Fault (α × List Lexeme))
    (post : α → List Token → List Lexeme → Prop) : Prop :=
  match x with
  | .ok (value, rest) => ∃ used, ts = used ++ rest ∧ post value (tokens used) rest
  | .error fault => Refused ts fault

theorem Refused.before {left : List Lexeme} {fault : Fault} (h : Refused left fault)
    (hsuffix : left <:+ ts) : Refused ts fault := by
  obtain ⟨rest, hrest, hfault⟩ := h
  exact ⟨rest, hrest.trans hsuffix, hfault⟩

theorem refused_unexpected : Refused ts (unexpected ts) := ⟨ts, List.suffix_refl ts, .inl rfl⟩

theorem refused_tooDeep : Refused ts (tooDeep ts) := ⟨ts, List.suffix_refl ts, .inr rfl⟩

namespace Meets

variable {P Q : α → List Token → List Lexeme → Prop}

theorem ok {value : α} (h : Q value [] ts) : Meets ts (.ok (value, ts)) Q := ⟨[], rfl, h⟩

theorem one {value : α} {lexeme : Lexeme} (h : Q value [lexeme.token] ts) :
    Meets (lexeme :: ts) (.ok (value, ts)) Q := ⟨[lexeme], rfl, h⟩

theorem mono {x : Except Fault (α × List Lexeme)} (h : Meets ts x P)
    (hmono : ∀ value us rest, P value us rest → Q value us rest) : Meets ts x Q := by
  cases x with
  | error fault => exact h
  | ok found =>
    obtain ⟨used, hused, hpost⟩ := h
    exact ⟨used, hused, hmono _ _ _ hpost⟩

theorem bind {R : β → List Token → List Lexeme → Prop} {x : Except Fault (α × List Lexeme)}
    {f : α × List Lexeme → Except Fault (β × List Lexeme)} (hx : Meets ts x P)
    (hf : ∀ value used rest, ts = used ++ rest → P value (tokens used) rest →
      Meets rest (f (value, rest)) fun other us => R other (tokens used ++ us)) :
    Meets ts (x >>= f) R := by
  cases x with
  | error fault => exact hx
  | ok found =>
    obtain ⟨value, rest⟩ := found
    obtain ⟨used, hused, hpost⟩ := hx
    have hnext := hf value used rest hused hpost
    change Meets ts (f (value, rest)) R
    cases hfound : f (value, rest) with
    | error fault =>
      rw [hfound] at hnext
      exact hnext.before ⟨used, hused.symm⟩
    | ok other =>
      rw [hfound] at hnext
      obtain ⟨more, hmore, hpost⟩ := hnext
      refine ⟨used ++ more, ?_, ?_⟩
      · rw [hused, hmore, List.append_assoc]
      · rw [Lexeme.tokens_append]
        exact hpost

/-- A lexeme that comes before. -/
theorem cons {x : Except Fault (α × List Lexeme)} {lexeme : Lexeme}
    (h : Meets ts x fun value us => Q value (lexeme.token :: us)) : Meets (lexeme :: ts) x Q := by
  cases x with
  | error fault => exact h.before (List.suffix_cons lexeme ts)
  | ok found =>
    obtain ⟨used, hused, hpost⟩ := h
    exact ⟨lexeme :: used, by rw [hused, List.cons_append], hpost⟩

theorem keep {e : Expr} {R : Expr → List Token → List Lexeme → Prop}
    (h : e.height ≤ maxDepth → R e [] ts) : Meets ts (keep e ts) R := by
  unfold Expr.keep
  split
  · rename_i hheight
    exact ok (h hheight)
  · exact refused_tooDeep

theorem keep_bind {e : Expr} {f : Expr × List Lexeme → Except Fault (α × List Lexeme)}
    (h : e.height ≤ maxDepth → Meets ts (f (e, ts)) Q) : Meets ts (Expr.keep e ts >>= f) Q := by
  unfold Expr.keep
  split
  · rename_i hheight
    exact h hheight
  · exact refused_tooDeep

theorem closed {bracket : Bracket} {value : α}
    (h : ∀ rest, Q value [.closing bracket] rest) : Meets ts (closed bracket value ts) Q := by
  cases ts with
  | nil => exact refused_unexpected
  | cons lexeme rest =>
    simp only [Expr.closed]
    split
    · rename_i hclosing
      apply one
      rw [hclosing]
      exact h rest
    · exact refused_unexpected

end Meets

/-- What a reader of expressions promises: a phrase, low enough, behind which no operator comes
that it would have taken. -/
def IsPhrase (d : Nat) (p : Phrase) (e : Expr) (us : List Token) (rest : List Lexeme) : Prop :=
  Derives d (.phrase p) us e ∧ e.height ≤ maxDepth ∧ Stops p.precedence rest

/-- What a reader promises that takes no operators between operands. -/
def IsTight (d : Nat) (p : Phrase) (e : Expr) (us : List Token) (_ : List Lexeme) : Prop :=
  Derives d (.phrase p) us e ∧ e.height ≤ maxDepth

/-- Readers whose results the grammar derives within the depth. -/
structure Descent.Sound (inner : Descent) (d : Nat) : Prop where
  expression : ∀ p ts, p.precedence ≤ Precedence.operand →
    Meets ts (outcome (inner.expression p.precedence ts)) (IsPhrase d p)
  operand : ∀ ts, Meets ts (outcome (inner.operand ts)) (IsTight d .signed)

/-- The readers one descent below are sound, if there are any. -/
def SoundBelow (below : Option Descent) (d : Nat) : Prop :=
  ∀ inner, below = some inner → ∃ n, d = n + 1 ∧ inner.Sound n

theorem SoundBelow.descend {below : Option Descent} {d : Nat} (hbelow : SoundBelow below d)
    {f : Descent → Except Fault (α × List Lexeme)} {Q : α → List Token → List Lexeme → Prop}
    (h : ∀ n inner, d = n + 1 → inner.Sound n → Meets ts (f inner) Q) :
    Meets ts (descend below ts >>= f) Q := by
  cases below with
  | none => exact refused_tooDeep
  | some inner =>
    obtain ⟨n, hn, hinner⟩ := hbelow inner rfl
    exact h n inner hn hinner

theorem items_meets {inner : Descent} {d : Nat} (hinner : inner.Sound d) (bracket : Bracket)
    (ts : List Lexeme) :
    Meets ts (outcome (items inner bracket ts)) fun es us _ =>
      ∃ vs, us = vs ++ [.closing bracket] ∧ Derives d .items vs es := by
  induction ts using Lexeme.shorter with
  | step ts ih =>
    cases ts with
    | nil =>
      rw [items]
      exact refused_unexpected
    | cons lexeme rest =>
      rw [outcome_items]
      split
      · rename_i hclosing
        apply Meets.one
        exact ⟨[], by rw [hclosing]; rfl, .noItem⟩
      · apply (hinner.expression .disjunction _ (by decide)).bind
        intro first used left hused hfirst
        dsimp only
        split
        · rename_i hcomma
          obtain ⟨offset, after, rfl⟩ := eq_cons_of_next hcomma (by simp)
          have hshort : after.length < (lexeme :: rest).length := by
            rw [hused, List.length_append, List.length_cons]
            omega
          apply Meets.cons
          apply (ih after hshort).bind
          intro others more left _ hothers
          obtain ⟨vs, hvs, hderives⟩ := hothers
          apply Meets.ok
          refine ⟨tokens used ++ .symbol .comma :: vs, ?_, .item hfirst.1 hderives⟩
          simp [hvs]
        · apply Meets.closed
          intro after
          exact ⟨tokens used, rfl, .lastItem hfirst.1⟩

theorem group_meets {below : Option Descent} {d : Nat} (hbelow : SoundBelow below d)
    (lexeme : Lexeme) (hopening : lexeme.token = .opening .round) (ts : List Lexeme) :
    Meets (lexeme :: ts) (outcome (group below ts)) (IsTight d .atom) := by
  apply Meets.cons
  rw [hopening, outcome_group]
  split
  · rename_i hclosing
    obtain ⟨offset, after, rfl⟩ := eq_cons_of_next hclosing (by simp)
    apply Meets.one
    exact ⟨.empty, by decide⟩
  · apply hbelow.descend
    intro d inner hd hinner
    subst hd
    apply (hinner.expression .disjunction ts (by decide)).bind
    intro first used left _ hfirst
    dsimp only
    split
    · rename_i hcomma
      obtain ⟨offset, after, rfl⟩ := eq_cons_of_next hcomma (by simp)
      apply Meets.cons
      apply hbelow.descend
      intro n other hn hother
      obtain rfl : d = n := by omega
      apply (items_meets hother .round after).bind
      intro others more left _ hothers
      obtain ⟨vs, hvs, hderives⟩ := hothers
      apply Meets.keep
      intro hheight
      refine ⟨?_, hheight⟩
      simpa [hvs] using Derives.tuple hfirst.1 hderives
    · apply Meets.closed
      intro after
      exact ⟨.group hfirst.1, hfirst.2.1⟩

theorem atom_meets {below : Option Descent} {d : Nat} (hbelow : SoundBelow below d)
    (ts : List Lexeme) :
    Meets ts (outcome (atom below ts)) (IsTight d .atom) := by
  cases ts with
  | nil => exact refused_unexpected
  | cons lexeme rest =>
    rw [outcome_atom]
    split
    · rename_i c hconstant
      apply Meets.one
      rw [Constant.eq_token hconstant]
      exact ⟨.constant c, by simp [height, maxDepth]⟩
    · rename_i text _ hname
      apply Meets.one
      rw [hname]
      exact ⟨.name text, by simp [height, maxDepth]⟩
    · rename_i hopening
      exact group_meets hbelow lexeme hopening rest
    · rename_i hopening
      apply Meets.cons
      apply hbelow.descend
      intro d inner hd hinner
      subst hd
      apply (items_meets hinner .square rest).bind
      intro found used left _ hfound
      obtain ⟨vs, hvs, hderives⟩ := hfound
      apply Meets.keep
      intro hheight
      refine ⟨?_, hheight⟩
      simpa [hvs, hopening] using Derives.list hderives
    · exact refused_unexpected

theorem trailers_meets {below : Option Descent} {d : Nat} (hbelow : SoundBelow below d)
    {target : Expr} {us : List Token} (htarget : Derives d (.phrase .primary) us target)
    (hlow : target.height ≤ maxDepth) (ts : List Lexeme) :
    Meets ts (outcome (trailers below target ts)) fun e vs => IsTight d .primary e (us ++ vs) := by
  induction ts using Lexeme.shorter generalizing target us d with
  | step ts ih =>
    rw [outcome_trailers]
    split
    · rename_i hopening
      obtain ⟨offset, rest, rfl⟩ := eq_cons_of_next hopening (by simp)
      apply Meets.cons
      apply hbelow.descend
      intro n inner hn hinner
      subst hn
      apply (items_meets hinner .round rest).bind
      intro arguments used left hused harguments
      obtain ⟨vs, hvs, hderives⟩ := harguments
      have hshort : left.length < (⟨.opening .round, offset⟩ :: rest : List Lexeme).length := by
        simp only [hused, List.length_cons, List.length_append]
        omega
      apply Meets.keep_bind
      intro hheight
      apply (ih left hshort hbelow (.call htarget hderives) hheight).mono
      intro e more rest h
      simpa [hvs] using h
    · rename_i hopening
      obtain ⟨offset, rest, rfl⟩ := eq_cons_of_next hopening (by simp)
      apply Meets.cons
      apply hbelow.descend
      intro n inner hn hinner
      subst hn
      apply (hinner.expression .disjunction rest (by decide)).bind
      intro index used left hused hindex
      apply Meets.bind (P := fun other vs _ => other = index ∧ vs = [.closing .square])
      · apply Meets.closed
        intro after
        exact ⟨rfl, rfl⟩
      · rintro other closing after hclosing ⟨rfl, hsquare⟩
        have hshort : after.length < (⟨.opening .square, offset⟩ :: rest : List Lexeme).length := by
          simp only [hused, hclosing, List.length_cons, List.length_append]
          omega
        apply Meets.keep_bind
        intro hheight
        apply (ih after hshort hbelow (.subscript htarget hindex.1) hheight).mono
        intro e more rest h
        simpa [hsquare] using h
    · rename_i hdot
      obtain ⟨offset, rest, rfl⟩ := eq_cons_of_next hdot (by simp)
      apply Meets.cons
      split
      · rename_i text hname
        obtain ⟨offset, after, rfl⟩ := eq_cons_of_next hname (by simp)
        apply Meets.cons
        apply Meets.keep_bind
        intro hheight
        have hshort := Nat.lt_add_of_pos_right (n := after.length) (k := 2) (by decide)
        apply (ih after hshort hbelow (.member text htarget) hheight).mono
        intro e more rest h
        simpa using h
      · exact refused_unexpected
    · apply Meets.ok
      rw [List.append_nil]
      exact ⟨htarget, hlow⟩

theorem primary_meets {below : Option Descent} {d : Nat} (hbelow : SoundBelow below d)
    (ts : List Lexeme) : Meets ts (outcome (primary below ts)) (IsTight d .primary) := by
  rw [outcome_primary]
  apply (atom_meets hbelow ts).bind
  intro target used left _ htarget
  exact trailers_meets hbelow (htarget.1.loosen (by decide)) htarget.2 left

theorem power_meets {below : Option Descent} {d : Nat} (hbelow : SoundBelow below d)
    (ts : List Lexeme) : Meets ts (outcome (power below ts)) (IsTight d .power) := by
  rw [outcome_power]
  apply (primary_meets hbelow ts).bind
  intro base used left _ hbase
  dsimp only
  split
  · rename_i hstar
    obtain ⟨offset, after, rfl⟩ := eq_cons_of_next hstar (by simp)
    apply Meets.cons
    apply hbelow.descend
    intro n inner hn hinner
    subst hn
    apply (hinner.operand after).bind
    intro exponent more left _ hexponent
    apply Meets.keep
    intro hheight
    refine ⟨?_, hheight⟩
    simpa using Derives.power hbase.1 hexponent.1
  · apply Meets.ok
    rw [List.append_nil]
    exact ⟨hbase.1.loosen (by decide), hbase.2⟩

/-- Where a `not` may stand the result is only as tight as a negation; else it is tight. -/
theorem unaryOrPower_meets {below : Option Descent} {d : Nat} (hbelow : SoundBelow below d)
    (least : Nat) (ts : List Lexeme) :
    Meets ts (outcome (unaryOrPower below least ts)) fun e us rest =>
      IsTight d .signed e us rest ∨
        least ≤ Precedence.not ∧ IsPhrase d .negation e us rest := by
  cases ts with
  | nil => exact refused_unexpected
  | cons lexeme rest =>
    have hpower := (power_meets hbelow (lexeme :: rest)).mono
      (Q := fun e us rest => IsTight d .signed e us rest ∨
        least ≤ Precedence.not ∧ IsPhrase d .negation e us rest)
      fun e us rest h => .inl ⟨h.1.loosen (by decide), h.2⟩
    rw [outcome_unaryOrPower]
    split
    · exact hpower
    · rename_i hnot
      split
      · rename_i hleast
        apply Meets.cons
        apply hbelow.descend
        intro n inner hn hinner
        subst hn
        apply (hinner.expression .negation rest (by decide)).bind
        intro operand used left _ hoperand
        apply Meets.keep
        intro hheight
        refine .inr ⟨hleast, ?_, hheight, hoperand.2.2⟩
        simpa [UnaryOp.eq_token hnot, UnaryOp.token] using Derives.not hoperand.1
      · exact hpower
    · rename_i op hsign hop
      apply Meets.cons
      apply hbelow.descend
      intro n inner hn hinner
      subst hn
      apply (hinner.operand rest).bind
      intro operand used left _ hoperand
      apply Meets.keep
      intro hheight
      refine .inl ⟨?_, hheight⟩
      simpa [UnaryOp.eq_token hop] using Derives.signed hsign hoperand.1

theorem connectedTo_meets {inner : Descent} {d : Nat} (hinner : inner.Sound d) (op : Connective)
    (ts : List Lexeme) :
    Meets ts (outcome (connectedTo inner op ts)) fun es us rest =>
      Derives d (.operands op) us es ∧ Admits op.chain rest := by
  induction ts using Lexeme.shorter with
  | step ts ih =>
    rw [outcome_connectedTo, ← op.precedence_operand]
    apply (hinner.expression op.operand ts (by cases op <;> decide)).bind
    intro first used left hused hfirst
    dsimp only
    split
    · rename_i hlink
      have htoken := Link.eq_token_of_connective hlink
      obtain ⟨offset, after, rfl⟩ := eq_cons_of_next htoken (by cases op <;> simp [Connective.token])
      have hshort : after.length < ts.length := by
        rw [hused, List.length_append, List.length_cons]
        omega
      apply Meets.cons
      apply (ih after hshort).bind
      intro others more left _ hothers
      apply Meets.ok
      refine ⟨?_, hothers.2⟩
      simpa using Derives.operand hfirst.1 hothers.1
    · rename_i hend
      apply Meets.ok
      rw [List.append_nil]
      have hstops := hfirst.2.2
      rw [op.precedence_operand] at hstops
      exact ⟨.lastOperand hfirst.1, hstops.admits_chain hend⟩

theorem comparedTo_meets {inner : Descent} {d : Nat} (hinner : inner.Sound d) (op : Comparison)
    (ts : List Lexeme) :
    Meets ts (outcome (comparedTo inner op ts)) fun es us rest =>
      Derives d .comparisons (.symbol op.symbol :: us) es ∧ Admits .comparison rest := by
  induction ts using Lexeme.shorter generalizing op with
  | step ts ih =>
    rw [outcome_comparedTo]
    apply (hinner.expression (.binary .bitOr) ts (by decide)).bind
    intro first used left hused hfirst
    dsimp only
    split
    · rename_i following hlink
      have htoken := Link.eq_symbol_of_comparison hlink
      obtain ⟨offset, after, rfl⟩ := eq_cons_of_next htoken (by simp)
      have hshort : after.length < ts.length := by
        rw [hused, List.length_append, List.length_cons]
        omega
      apply Meets.cons
      apply (ih after hshort following).bind
      intro others more left _ hothers
      apply Meets.ok
      refine ⟨?_, hothers.2⟩
      simpa using Derives.comparison op hfirst.1 hothers.1
    · rename_i hend
      apply Meets.ok
      rw [List.append_nil]
      exact ⟨.lastComparison op hfirst.1, hfirst.2.2.admits_comparison hend⟩

/-- A link makes a phrase of its own tightness, if the left operand is tight enough for it. -/
theorem extend_meets {below : Option Descent} {d : Nat} (hbelow : SoundBelow below d)
    {left : Expr} {us : List Token} {q : Phrase} (hleft : Derives d (.phrase q) us left)
    {link : Link} (hleast : link.least ≤ q.precedence) {lexeme : Lexeme}
    (hlink : Link.ofToken? lexeme.token = some link) (rest : List Lexeme) :
    Meets (lexeme :: rest) (outcome (extend below left link lexeme rest)) fun e vs after =>
      ∃ p : Phrase, p.precedence = link.precedence ∧ Derives d (.phrase p) (us ++ vs) e ∧
        e.height ≤ maxDepth ∧ Admits p after ∧ vs ≠ [] := by
  rw [outcome_extend]
  cases link with
  | arithmetic op =>
    obtain ⟨hpow, htoken⟩ := Link.eq_symbol_of_arithmetic hlink
    obtain ⟨level, hmem⟩ := BinaryOp.exists_level hpow
    have hprecedence := Level.precedence_of_mem hmem
    apply Meets.cons
    apply hbelow.descend
    intro n inner hn hinner
    subst hn
    rw [hprecedence, ← level.precedence_operand]
    apply (hinner.expression level.operand rest (by cases level <;> decide)).bind
    intro right used after _ hright
    have hstops := hright.2.2
    rw [level.precedence_operand] at hstops
    apply Meets.keep
    intro hheight
    refine ⟨.binary level, hprecedence.symm, ?_, hheight, hstops.admits_binary, by simp⟩
    have hloose : Derives (n + 1) (.phrase (.binary level)) us left :=
      hleft.loosen (Nat.le_trans (Nat.le_of_eq hprecedence.symm) hleast)
    simpa [htoken] using Derives.binary hmem hloose hright.1
  | connective op =>
    apply hbelow.descend
    intro n inner hn hinner
    subst hn
    apply Meets.cons
    apply (connectedTo_meets hinner op rest).bind
    intro others used after _ hothers
    apply Meets.keep
    intro hheight
    refine ⟨op.chain, op.precedence_chain, ?_, hheight, hothers.2, by simp⟩
    have hloose : Derives (n + 1) (.phrase op.operand) us left :=
      hleft.loosen (by rw [op.precedence_operand]; exact hleast)
    simpa [Link.eq_token_of_connective hlink] using Derives.connected hloose hothers.1
  | comparison op =>
    apply hbelow.descend
    intro n inner hn hinner
    subst hn
    apply Meets.cons
    apply (comparedTo_meets hinner op rest).bind
    intro others used after _ hothers
    apply Meets.keep
    intro hheight
    refine ⟨.comparison, rfl, ?_, hheight, hothers.2, by simp⟩
    have hloose : Derives (n + 1) (.phrase (.binary .bitOr)) us left := hleft.loosen hleast
    simpa [Link.eq_symbol_of_comparison hlink] using Derives.compared hloose hothers.1

theorem climb_meets {below : Option Descent} {d : Nat} (hbelow : SoundBelow below d) {p q : Phrase}
    {left : Expr} {us : List Token} (hleft : Derives d (.phrase q) us left)
    (hlow : left.height ≤ maxDepth) (hle : p.precedence ≤ q.precedence) {ts : List Lexeme}
    (hadmits : Admits q ts) :
    Meets ts (outcome (climb below p.precedence left ts)) fun e vs => IsPhrase d p e (us ++ vs) := by
  induction ts using Lexeme.shorter generalizing q left us with
  | step ts ih =>
    have hstop (h : Stops p.precedence ts) :
        Meets ts (.ok (left, ts)) fun e vs => IsPhrase d p e (us ++ vs) := by
      apply Meets.ok
      rw [List.append_nil]
      exact ⟨hleft.loosen hle, hlow, h⟩
    rw [outcome_climb]
    split
    · apply hstop
      intro link hlink
      cases hlink
    · rename_i lexeme rest
      split
      · rename_i hnone
        apply hstop
        intro link hlink
        rw [next_cons, hnone] at hlink
        cases hlink
      · rename_i link hlink
        split
        · rename_i hloose
          apply hstop
          intro other hother
          rw [next_cons, hlink] at hother
          cases hother
          exact hloose
        · rename_i htight
          apply (extend_meets hbelow hleft (hadmits link hlink) hlink rest).bind
          rintro joined used after hused ⟨r, hr, hjoined, hheight, hadmits, hne⟩
          have hshort : after.length < (lexeme :: rest).length := by
            have hpos : 0 < used.length := by
              cases used with
              | nil => exact absurd rfl hne
              | cons => exact Nat.zero_lt_succ _
            rw [hused, List.length_append]
            omega
          apply (ih after hshort hjoined hheight (by omega) hadmits).mono
          intro e more rest h
          rw [List.append_assoc] at h
          exact h

theorem expression_meets {below : Option Descent} {d : Nat} (hbelow : SoundBelow below d)
    {p : Phrase} (hp : p.precedence ≤ Precedence.operand) (ts : List Lexeme) :
    Meets ts (outcome (expression below p.precedence ts)) (IsPhrase d p) := by
  rw [outcome_expression]
  apply (unaryOrPower_meets hbelow p.precedence ts).bind
  intro first used left _ hfirst
  rcases hfirst with htight | ⟨hle, hnegation⟩
  · exact climb_meets hbelow htight.1 htight.2 hp (admits_signed left)
  · exact climb_meets hbelow hnegation.1 hnegation.2.1 hle hnegation.2.2.admits

/-- The readers one descent below those with so many descents left. -/
def innerDescent : Nat → Option Descent
  | 0 => none
  | depth + 1 => some (descent depth)

theorem descent_eq (depth : Nat) :
    descent depth =
      ⟨expression (innerDescent depth), unaryOrPower (innerDescent depth) Precedence.operand⟩ := by
  cases depth <;> rfl

theorem sound_of_below {depth : Nat} (hbelow : SoundBelow (innerDescent depth) depth) :
    (descent depth).Sound depth := by
  rw [descent_eq]
  constructor
  · intro p ts hp
    exact expression_meets hbelow hp ts
  · intro ts
    apply (unaryOrPower_meets hbelow Precedence.operand ts).mono
    intro e us rest h
    rcases h with htight | ⟨hle, _⟩
    · exact htight
    · exact absurd hle (by decide)

theorem descent_sound (depth : Nat) : (descent depth).Sound depth := by
  induction depth with
  | zero =>
    apply sound_of_below
    intro inner hinner
    cases hinner
  | succ depth ih =>
    apply sound_of_below
    intro inner hinner
    cases hinner
    exact ⟨depth, rfl, ih⟩

theorem furtherItems_meets {outermost : Descent} {d : Nat} (houtermost : outermost.Sound d)
    {ts : List Lexeme} (hcomma : next ts = .symbol .comma) :
    Meets ts (outcome (furtherItems outermost ts)) fun es us _ =>
      ∃ vs, us = .symbol .comma :: vs ∧ Derives d .items vs es := by
  induction ts using Lexeme.shorter with
  | step ts ih =>
    obtain ⟨offset, rest, rfl⟩ := eq_cons_of_next hcomma (by simp)
    rw [outcome_furtherItems, if_pos hcomma]
    apply Meets.cons
    split
    · apply Meets.ok
      exact ⟨[], rfl, .noItem⟩
    · apply (houtermost.expression .disjunction rest (by decide)).bind
      intro item used left hused hitem
      dsimp only
      by_cases hmore : next left = .symbol .comma
      · have hshort : left.length < (⟨.symbol .comma, offset⟩ :: rest : List Lexeme).length := by
          rw [hused, List.length_cons, List.length_append]
          omega
        apply (ih left hshort hmore).bind
        intro others more left _ hothers
        obtain ⟨vs, hvs, hderives⟩ := hothers
        apply Meets.ok
        refine ⟨tokens used ++ .symbol .comma :: vs, ?_, .item hitem.1 hderives⟩
        simp [hvs]
      · rw [outcome_furtherItems, if_neg hmore]
        apply Meets.ok
        refine ⟨tokens used, ?_, .lastItem hitem.1⟩
        simp

theorem sentence_meets (ts : List Lexeme) :
    Meets ts (sentence ts) fun e us _ => Derives maxDepth .sentence us e ∧ e.height ≤ maxDepth := by
  have hsound := descent_sound maxDepth
  apply (hsound.expression .disjunction ts (by decide)).bind
  intro first used left _ hfirst
  dsimp only
  split
  · rename_i hcomma
    apply (furtherItems_meets hsound hcomma).bind
    intro others more left _ hothers
    obtain ⟨vs, hvs, hderives⟩ := hothers
    apply Meets.keep
    intro hheight
    refine ⟨?_, hheight⟩
    simpa [hvs] using Derives.bareTuple hfirst.1 hderives
  · apply Meets.ok
    rw [List.append_nil]
    exact ⟨.single hfirst.1, hfirst.2.1⟩

/-- An expression that is read from all the lexemes is derived from those before the end. -/
theorem derives_of_ofLexemes {ts : List Lexeme} {e : Expr} (h : ofLexemes ts = .ok e) :
    ∃ used rest, ts = used ++ rest ∧ next rest = .eof ∧
      Derives maxDepth .sentence (tokens used) e ∧ e.height ≤ maxDepth := by
  have hmeets := sentence_meets ts
  rw [ofLexemes_eq] at h
  cases hfound : sentence ts with
  | error fault =>
    rw [hfound] at h
    cases h
  | ok found =>
    obtain ⟨whole, left⟩ := found
    rw [hfound] at h hmeets
    obtain ⟨used, hused, hpost⟩ := hmeets
    change (if next left = .eof then .ok whole else .error (unexpected left)) = Except.ok e at h
    split at h
    · rename_i hend
      cases h
      exact ⟨used, left, hused, hend, hpost⟩
    · cases h

theorem refused_of_ofLexemes {ts : List Lexeme} {fault : Fault} (h : ofLexemes ts = .error fault) :
    Refused ts fault := by
  have hmeets := sentence_meets ts
  rw [ofLexemes_eq] at h
  cases hfound : sentence ts with
  | error other =>
    rw [hfound] at h hmeets
    cases h
    exact hmeets
  | ok found =>
    obtain ⟨whole, left⟩ := found
    rw [hfound] at h hmeets
    obtain ⟨used, hused, _⟩ := hmeets
    change (if next left = .eof then .ok whole else .error (unexpected left)) = Except.error fault at h
    split at h
    · cases h
    · cases h
      exact refused_unexpected.before ⟨used, hused.symm⟩

end Expr

end Abacus
