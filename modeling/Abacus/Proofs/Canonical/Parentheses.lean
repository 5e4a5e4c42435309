import Abacus.Proofs.Canonical.Printing
import Abacus.Proofs.Grammar.Nesting

namespace Abacus

variable {d n : Nat} {ts us : List Token}

/-- Tokens that a text can have, balanced and with no more than `n` brackets open at once. -/
structure Tame (n : Nat) (ts : List Token) : Prop where
  balanced : Balanced ts
  low : peak ts ≤ n
  readable : ∀ t ∈ ts, t.Readable

namespace Tame

theorem mono {m : Nat} (h : Tame n ts) (hle : n ≤ m) : Tame m ts :=
  ⟨h.balanced, Nat.le_trans h.low hle, h.readable⟩

theorem nil : Tame n [] := ⟨.nil, Nat.zero_le n, by simp⟩

theorem cons {t : Token} (ht : t.isBracket = false) (hreadable : t.Readable) (h : Tame n ts) :
    Tame n (t :: ts) := by
  refine ⟨.token ht h.balanced, ?_, ?_⟩
  · rw [peak_cons ht]
    exact h.low
  · intro u hu
    rcases List.mem_cons.1 hu with rfl | hu
    · exact hreadable
    · exact h.readable u hu

theorem append (hts : Tame n ts) (hus : Tame n us) : Tame n (ts ++ us) := by
  refine ⟨hts.balanced.append hus.balanced, ?_, ?_⟩
  · rw [hts.balanced.peak_append]
    exact Nat.max_le.2 ⟨hts.low, hus.low⟩
  · intro u hu
    rcases List.mem_append.1 hu with hu | hu
    · exact hts.readable u hu
    · exact hus.readable u hu

theorem enclosed (bracket : Bracket) (h : Tame n ts) :
    Tame (n + 1) (.opening bracket :: ts ++ [.closing bracket]) := by
  refine ⟨h.balanced.enclosed bracket, ?_, ?_⟩
  · rw [h.balanced.peak_enclosed bracket]
    exact Nat.succ_le_succ h.low
  · intro u hu
    rw [List.mem_append, List.mem_cons, List.mem_singleton] at hu
    rcases hu with (rfl | hu) | rfl
    · trivial
    · exact h.readable u hu
    · trivial

theorem of_cons {t : Token} (h : Tame n (t :: ts)) (ht : t.isBracket = false)
    (hts : Balanced ts) : Tame n ts := by
  refine ⟨hts, ?_, fun u hu => h.readable u (List.mem_cons_of_mem t hu)⟩
  have hlow := h.low
  rwa [peak_cons ht] at hlow

theorem of_append (h : Tame n (ts ++ us)) (hts : Balanced ts) (hus : Balanced us) :
    Tame n ts ∧ Tame n us := by
  have hlow := h.low
  rw [hts.peak_append, Nat.max_le] at hlow
  exact ⟨⟨hts, hlow.1, fun u hu => h.readable u (List.mem_append_left us hu)⟩,
    ⟨hus, hlow.2, fun u hu => h.readable u (List.mem_append_right ts hu)⟩⟩

theorem of_join {t : Token} (h : Tame n (ts ++ t :: us)) (ht : t.isBracket = false)
    (hts : Balanced ts) (hus : Balanced us) : Tame n ts ∧ Tame n us := by
  obtain ⟨hleft, hright⟩ := h.of_append hts (.token ht hus)
  exact ⟨hleft, hright.of_cons ht hus⟩

theorem of_enclosed {bracket : Bracket} (h : Tame n (.opening bracket :: ts ++ [.closing bracket]))
    (hts : Balanced ts) : ∃ m, n = m + 1 ∧ Tame m ts := by
  have hlow := h.low
  rw [hts.peak_enclosed bracket] at hlow
  exact ⟨n - 1, by omega, hts, by omega, fun u hu => h.readable u (by simp [hu])⟩

theorem join {t : Token} (hts : Tame n ts) (ht : t.isBracket = false) (hreadable : t.Readable)
    (hus : Tame n us) : Tame n (ts ++ t :: us) :=
  hts.append (hus.cons ht hreadable)

end Tame

namespace Expr

/-- Tokens that are derived as a category and tame. -/
def Printed (d n : Nat) (c : Category) (ts : List Token) (e : c.Tree) : Prop :=
  Derives d c ts e ∧ Tame n ts

/-- The tree can be written without parentheses around it, in a place of any sort and as the whole
text. -/
structure Writable (d n : Nat) (e : Expr) : Prop where
  bare : Printed d n (.phrase e.phrase) e.bare e
  text : Printed d n .sentence e.bareText e

/-- The tree can be written where a phrase at least as tight as `p` must stand: without parentheses
if it is one, and otherwise with a pair for which there is room. -/
def Writes (d n : Nat) (p : Phrase) (e : Expr) : Prop :=
  p.precedence ≤ e.phrase.precedence ∧ Writable d n e ∨
    ∃ d' n', d = d' + 1 ∧ n = n' + 1 ∧ Writable d' n' e

theorem Writable.mono {d' n' : Nat} {e : Expr} (h : Writable d n e) (hd : d ≤ d') (hn : n ≤ n') :
    Writable d' n' e :=
  ⟨⟨h.bare.1.deepen hd, h.bare.2.mono hn⟩, ⟨h.text.1.deepen hd, h.text.2.mono hn⟩⟩

theorem Writes.writable {p : Phrase} {e : Expr} (h : Writes d n p e) : Writable d n e := by
  rcases h with ⟨_, hwritable⟩ | ⟨d', n', rfl, rfl, hwritable⟩
  · exact hwritable
  · exact hwritable.mono (Nat.le_succ d') (Nat.le_succ n')

theorem Writes.looser {p q : Phrase} {e : Expr} (h : Writes d n q e)
    (hle : p.precedence ≤ q.precedence) : Writes d n p e := by
  rcases h with ⟨htight, hwritable⟩ | hroom
  · exact .inl ⟨Nat.le_trans hle htight, hwritable⟩
  · exact .inr hroom

/-- Parentheses stand around a part only where there is room for them. -/
theorem Writes.placed {p : Phrase} {e : Expr} (h : Writes d n p e) :
    Printed d n (.phrase p) (e.placed p) e := by
  unfold Expr.placed enclose
  split
  · rename_i htight
    have hbare := h.writable.bare
    exact ⟨hbare.1.loosen htight, hbare.2⟩
  · rename_i hloose
    rcases h with ⟨htight, _⟩ | ⟨d', n', rfl, rfl, hwritable⟩
    · exact absurd htight hloose
    · have hinner := hwritable.bare.1.loosen (Phrase.precedence_disjunction_le _)
      exact ⟨hinner.group.loosen (Phrase.precedence_le_atom p), hwritable.bare.2.enclosed .round⟩

theorem Writes.inner {e : Expr} (h : Writes d n .disjunction e) :
    Printed d n (.phrase .disjunction) e.bare e := by
  have hplaced := h.placed
  unfold Expr.placed enclose at hplaced
  rwa [if_pos (Phrase.precedence_disjunction_le _)] at hplaced

/-- All but a tuple is written as the whole text just as anywhere else. -/
theorem writes_of_printed {p : Phrase} (e : Expr) (hphrase : e.phrase = p)
    (htext : e.bareText = e.bare) (h : Printed d n (.phrase p) e.bare e) : Writes d n p e := by
  subst hphrase
  refine .inl ⟨Nat.le_refl _, h, ?_⟩
  rw [htext]
  exact ⟨.single (h.1.loosen (Phrase.precedence_disjunction_le _)), h.2⟩

/-- What a category of tokens with these trees can be replaced by. -/
def WritesCategory (d n : Nat) : (c : Category) → c.Tree → Prop
  | .phrase p, e => Writes d n p e
  | .operands op, es => Printed d n (.operands op) (bareOperands op es) es
  | .comparisons, es => Printed d n .comparisons (bareComparisons es) es
  | .items, es => Printed d n .items (bareItems es) es
  | .sentence, e => Printed d n .sentence e.bareText e

variable {e f : Expr} {es : List Expr}

theorem readable_unary (op : UnaryOp) : op.token.Readable := by
  cases op <;> trivial

theorem readable_connective (op : Connective) : op.token.Readable := by
  cases op <;> trivial

theorem bareOperands_cons (op : Connective) (e : Expr) (hne : es ≠ []) :
    bareOperands op (e :: es) = e.placed op.operand ++ op.token :: bareOperands op es := by
  cases es with
  | nil => exact absurd rfl hne
  | cons => rfl

theorem ne_nil_of_operands {op : Connective} (h : Derives d (.operands op) ts es) : es ≠ [] := by
  cases h <;> exact List.cons_ne_nil _ _

theorem printed_operands {op : Connective} (hothers : Derives d (.operands op) us es)
    (first : Writes d n op.operand e) (others : Printed d n (.operands op) (bareOperands op es) es) :
    Printed d n (.operands op) (bareOperands op (e :: es)) (e :: es) := by
  rw [bareOperands_cons op e (ne_nil_of_operands hothers)]
  exact ⟨.operand first.placed.1 others.1,
    first.placed.2.join op.isBracket_token (readable_connective op) others.2⟩

theorem writes_connected {op : Connective} (hothers : Derives d (.operands op) us es)
    (first : Writes (d + 1) n op.operand e)
    (others : Printed d n (.operands op) (bareOperands op es) es) :
    Writes (d + 1) n op.chain (connected op (e :: es)) := by
  have hbare : (connected op (e :: es)).bare = e.placed op.operand ++ op.token :: bareOperands op es :=
    bareOperands_cons op e (ne_nil_of_operands hothers)
  refine writes_of_printed (connected op (e :: es)) rfl rfl ?_
  rw [hbare]
  exact ⟨.connected first.placed.1 others.1,
    first.placed.2.join op.isBracket_token (readable_connective op) others.2⟩

theorem writes_compared {others : List (Comparison × Expr)}
    (first : Writes (d + 1) n (.binary .bitOr) e)
    (hothers : Printed d n .comparisons (bareComparisons others) others) :
    Writes (d + 1) n .comparison (compared e others) :=
  writes_of_printed _ rfl rfl
    ⟨.compared first.placed.1 hothers.1, first.placed.2.append hothers.2⟩

theorem printed_comparison {op : Comparison} {others : List (Comparison × Expr)}
    (first : Writes d n (.binary .bitOr) e)
    (hothers : Printed d n .comparisons (bareComparisons others) others) :
    Printed d n .comparisons (bareComparisons ((op, e) :: others)) ((op, e) :: others) :=
  ⟨.comparison op first.placed.1 hothers.1,
    (first.placed.2.cons (t := .symbol op.symbol) rfl trivial).append hothers.2⟩

theorem printed_lastComparison {op : Comparison} (last : Writes d n (.binary .bitOr) e) :
    Printed d n .comparisons (bareComparisons [(op, e)]) [(op, e)] := by
  have hbare : bareComparisons [(op, e)] = .symbol op.symbol :: e.placed (.binary .bitOr) := by
    simp only [bareComparisons, List.append_nil]
    rfl
  rw [hbare]
  exact ⟨.lastComparison op last.placed.1, last.placed.2.cons rfl trivial⟩

theorem writes_unary (op : UnaryOp) (operand : Writes d n op.phrase e) :
    Writes (d + 1) n op.phrase (unary op e) := by
  have hplaced := operand.placed
  have htame := hplaced.2.cons op.isBracket_token (readable_unary op)
  refine writes_of_printed (unary op e) rfl rfl ?_
  cases op with
  | not => exact ⟨.not hplaced.1, htame⟩
  | pos => exact ⟨.signed (by decide) hplaced.1, htame⟩
  | neg => exact ⟨.signed (by decide) hplaced.1, htame⟩
  | invert => exact ⟨.signed (by decide) hplaced.1, htame⟩

theorem writes_binary {level : Level} {op : BinaryOp} (mem : op ∈ level.operators)
    (left : Writes (d + 1) n (.binary level) e) (right : Writes d n level.operand f) :
    Writes (d + 1) n (.binary level) (binary op e f) := by
  have hlevel := BinaryOp.level?_of_mem mem
  have hphrase : (binary op e f).phrase = .binary level := by
    simp only [phrase, BinaryOp.phrase, hlevel]
  have hbare : (binary op e f).bare =
      e.placed (.binary level) ++ .symbol op.symbol :: f.placed level.operand := by
    simp only [bare, BinaryOp.leftOperand, BinaryOp.rightOperand, hlevel]
    rfl
  refine writes_of_printed _ hphrase rfl ?_
  rw [hbare]
  exact ⟨.binary mem left.placed.1 right.placed.1, left.placed.2.join rfl trivial right.placed.2⟩

theorem writes_power (base : Writes (d + 1) n .primary e) (exponent : Writes d n .signed f) :
    Writes (d + 1) n .power (binary .pow e f) :=
  writes_of_printed _ rfl rfl
    ⟨.power base.placed.1 exponent.placed.1, base.placed.2.join rfl trivial exponent.placed.2⟩

theorem writes_call (callee : Writes (d + 1) (n + 1) .primary e)
    (arguments : Printed d n .items (bareItems es) es) :
    Writes (d + 1) (n + 1) .primary (call e es) := by
  refine writes_of_printed (call e es) rfl rfl ?_
  refine ⟨.call callee.placed.1 arguments.1, ?_⟩
  rw [bare, List.append_assoc]
  exact callee.placed.2.append (arguments.2.enclosed .round)

theorem writes_subscript (target : Writes (d + 1) (n + 1) .primary e)
    (index : Writes d n .disjunction f) : Writes (d + 1) (n + 1) .primary (subscript e f) := by
  refine writes_of_printed (subscript e f) rfl rfl ?_
  refine ⟨.subscript target.placed.1 index.inner.1, ?_⟩
  rw [bare, List.append_assoc]
  exact target.placed.2.append (index.inner.2.enclosed .square)

theorem writes_member {text : String} (hreadable : (Token.name text).Readable)
    (target : Writes d n .primary e) : Writes d n .primary (member e text) :=
  writes_of_printed _ rfl rfl
    ⟨.member text target.placed.1,
      target.placed.2.append (.cons rfl trivial (.cons rfl hreadable .nil))⟩

theorem writes_tuple (first : Writes d n .disjunction e)
    (others : Printed d n .items (bareItems es) es) :
    Writes (d + 1) (n + 1) .atom (tuple (e :: es)) := by
  have htame := first.inner.2.join (t := .symbol .comma) rfl trivial others.2
  refine .inl ⟨Nat.le_refl _, ⟨?_, ?_⟩, ?_, ?_⟩
  · exact .tuple first.inner.1 others.1
  · exact htame.enclosed .round
  · exact (Derives.bareTuple first.inner.1 others.1).deeper
  · exact htame.mono (Nat.le_succ n)

theorem printed_item (first : Writes d n .disjunction e)
    (others : Printed d n .items (bareItems es) es) :
    Printed d n .items (bareItems (e :: es)) (e :: es) := by
  cases es with
  | nil => exact ⟨.lastItem first.inner.1, first.inner.2⟩
  | cons f fs => exact ⟨.item first.inner.1 others.1, first.inner.2.join rfl trivial others.2⟩

theorem writes_of_derives {c : Category} {e : c.Tree} (h : Derives d c ts e)
    (htame : Tame n ts) : WritesCategory d n c e := by
  induction h generalizing n with
  | single _ ih => exact (ih htame).writable.text
  | bareTuple first others ihfirst ihothers =>
    obtain ⟨hfirst, hothers⟩ := htame.of_join rfl first.balanced others.balanced
    have hinner := (ihfirst hfirst).inner
    exact ⟨.bareTuple hinner.1 (ihothers hothers).1, hinner.2.join rfl trivial (ihothers hothers).2⟩
  | looser step _ ih =>
    have hprecedence := Phrase.precedence_tighter step
    exact (ih htame).looser (by omega)
  | @connected _ op _ _ _ _ first others ihfirst ihothers =>
    obtain ⟨hfirst, hothers⟩ := htame.of_join op.isBracket_token first.balanced others.balanced
    exact writes_connected others (ihfirst hfirst) (ihothers hothers)
  | lastOperand _ ih => exact ⟨.lastOperand (ih htame).placed.1, (ih htame).placed.2⟩
  | @operand _ op _ _ _ _ first others ihfirst ihothers =>
    obtain ⟨hfirst, hothers⟩ := htame.of_join op.isBracket_token first.balanced others.balanced
    exact printed_operands others (ihfirst hfirst) (ihothers hothers)
  | not operand ih => exact writes_unary .not (ih (htame.of_cons rfl operand.balanced))
  | compared first others ihfirst ihothers =>
    obtain ⟨hfirst, hothers⟩ := htame.of_append first.balanced others.balanced
    exact writes_compared (ihfirst hfirst) (ihothers hothers)
  | lastComparison op last ih =>
    exact printed_lastComparison (ih (htame.of_cons rfl last.balanced))
  | comparison op first others ihfirst ihothers =>
    have hboth := htame.of_cons rfl (first.balanced.append others.balanced)
    obtain ⟨hfirst, hothers⟩ := hboth.of_append first.balanced others.balanced
    exact printed_comparison (ihfirst hfirst) (ihothers hothers)
  | binary mem left right ihleft ihright =>
    obtain ⟨hleft, hright⟩ := htame.of_join rfl left.balanced right.balanced
    exact writes_binary mem (ihleft hleft) (ihright hright)
  | @signed _ op _ _ sign operand ih =>
    have hoperand := ih (htame.of_cons op.isBracket_token operand.balanced)
    cases op with
    | not => exact absurd rfl sign
    | pos => exact writes_unary .pos hoperand
    | neg => exact writes_unary .neg hoperand
    | invert => exact writes_unary .invert hoperand
  | power base exponent ihbase ihexponent =>
    obtain ⟨hbase, hexponent⟩ := htame.of_join rfl base.balanced exponent.balanced
    exact writes_power (ihbase hbase) (ihexponent hexponent)
  | call callee arguments ihcallee iharguments =>
    rw [List.append_assoc] at htame
    obtain ⟨hcallee, hbracket⟩ :=
      htame.of_append callee.balanced (arguments.balanced.enclosed .round)
    obtain ⟨m, rfl, harguments⟩ := hbracket.of_enclosed arguments.balanced
    exact writes_call (ihcallee hcallee) (iharguments harguments)
  | subscript target index ihtarget ihindex =>
    rw [List.append_assoc] at htame
    obtain ⟨htarget, hbracket⟩ := htame.of_append target.balanced (index.balanced.enclosed .square)
    obtain ⟨m, rfl, hindex⟩ := hbracket.of_enclosed index.balanced
    exact writes_subscript (ihtarget htarget) (ihindex hindex)
  | member text target ih =>
    obtain ⟨htarget, hname⟩ := htame.of_append target.balanced (.token rfl (.single rfl))
    exact writes_member (hname.readable _ (by simp)) (ih htarget)
  | constant c =>
    exact writes_of_printed _ rfl rfl ⟨.constant c, htame⟩
  | name text => exact writes_of_printed _ rfl rfl ⟨.name text, htame⟩
  | empty => exact writes_of_printed _ rfl rfl ⟨.empty, htame⟩
  | group inner ih =>
    obtain ⟨m, rfl, hinner⟩ := htame.of_enclosed inner.balanced
    exact .inr ⟨_, m, rfl, rfl, (ih hinner).writable⟩
  | tuple first others ihfirst ihothers =>
    obtain ⟨m, rfl, hinner⟩ := htame.of_enclosed (first.balanced.join rfl others.balanced)
    obtain ⟨hfirst, hothers⟩ := hinner.of_join rfl first.balanced others.balanced
    exact writes_tuple (ihfirst hfirst) (ihothers hothers)
  | list inner ih =>
    obtain ⟨m, rfl, hinner⟩ := htame.of_enclosed inner.balanced
    exact writes_of_printed _ rfl rfl ⟨.list (ih hinner).1, (ih hinner).2.enclosed .square⟩
  | noItem => exact ⟨.noItem, .nil⟩
  | lastItem _ ih => exact ⟨.lastItem (ih htame).inner.1, (ih htame).inner.2⟩
  | item first others ihfirst ihothers =>
    obtain ⟨hfirst, hothers⟩ := htame.of_join rfl first.balanced others.balanced
    exact printed_item (ihfirst hfirst) (ihothers hothers)

/-- Parentheses stand only where they are needed: without them the tree is no phrase as tight as its
place asks for. -/
theorem precedence_le_of_bare {p : Phrase} {e : Expr} (h : Derives d (.phrase p) e.bare e)
    (hreadable : ∀ t ∈ e.bare, t.Readable) : p.precedence ≤ e.phrase.precedence := by
  rcases writes_of_derives h ⟨h.balanced, Nat.le_refl _, hreadable⟩ with ⟨htight, _⟩ |
    ⟨d', n', _, hpeak, hwritable⟩
  · exact htight
  · have hlow := hwritable.bare.2.low
    omega

end Expr

end Abacus
