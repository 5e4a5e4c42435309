import Abacus.Proofs.Grammar.Nesting

namespace Abacus

/-- The tokens make up the category with this tree, and the deepest place in them lies inside so many
counted constructs: brackets other than `()`, right sides of operators, rests of chains, and operands of
signs and of `not`. -/
inductive Nests : (nesting : Nat) → (category : Category) → List Token → category.Tree → Prop where
  | single {n ts e} (whole : Nests n (.phrase .disjunction) ts e) : Nests n .sentence ts e
  | bareTuple {m n ts us e es} (first : Nests m (.phrase .disjunction) ts e)
      (others : Nests n .items us es) :
      Nests (max m n) .sentence (ts ++ .symbol .comma :: us) (.tuple (e :: es))
  | looser {n p q ts e} (step : p.tighter? = some q) (alone : Nests n (.phrase q) ts e) :
      Nests n (.phrase p) ts e
  | connected {m n op ts us e es} (first : Nests m (.phrase op.operand) ts e)
      (others : Nests n (.operands op) us es) :
      Nests (max m (n + 1)) (.phrase op.chain) (ts ++ op.token :: us) (.connected op (e :: es))
  | lastOperand {n op ts e} (last : Nests n (.phrase op.operand) ts e) : Nests n (.operands op) ts [e]
  | operand {m n op ts us e es} (first : Nests m (.phrase op.operand) ts e)
      (others : Nests n (.operands op) us es) :
      Nests (max m n) (.operands op) (ts ++ op.token :: us) (e :: es)
  | not {n ts e} (operand : Nests n (.phrase .negation) ts e) :
      Nests (n + 1) (.phrase .negation) (.keyword .not :: ts) (.unary .not e)
  | compared {m n ts us e es} (first : Nests m (.phrase (.binary .bitOr)) ts e)
      (others : Nests n .comparisons us es) :
      Nests (max m (n + 1)) (.phrase .comparison) (ts ++ us) (.compared e es)
  | lastComparison {n ts e} (op : Comparison) (last : Nests n (.phrase (.binary .bitOr)) ts e) :
      Nests n .comparisons (.symbol op.symbol :: ts) [(op, e)]
  | comparison {m n ts us e es} (op : Comparison) (first : Nests m (.phrase (.binary .bitOr)) ts e)
      (others : Nests n .comparisons us es) :
      Nests (max m n) .comparisons (.symbol op.symbol :: ts ++ us) ((op, e) :: es)
  | binary {m n level op ts us e f} (mem : op ∈ level.operators)
      (left : Nests m (.phrase (.binary level)) ts e)
      (right : Nests n (.phrase level.operand) us f) :
      Nests (max m (n + 1)) (.phrase (.binary level)) (ts ++ .symbol op.symbol :: us) (.binary op e f)
  | signed {n op ts e} (sign : op ≠ .not) (operand : Nests n (.phrase .signed) ts e) :
      Nests (n + 1) (.phrase .signed) (op.token :: ts) (.unary op e)
  | power {m n ts us e f} (base : Nests m (.phrase .primary) ts e)
      (exponent : Nests n (.phrase .signed) us f) :
      Nests (max m (n + 1)) (.phrase .power) (ts ++ .symbol .doubleStar :: us) (.binary .pow e f)
  | call {m n ts us e es} (callee : Nests m (.phrase .primary) ts e)
      (arguments : Nests n .items us es) :
      Nests (max m (n + 1)) (.phrase .primary) (ts ++ .opening .round :: us ++ [.closing .round])
        (.call e es)
  | subscript {m n ts us e f} (target : Nests m (.phrase .primary) ts e)
      (index : Nests n (.phrase .disjunction) us f) :
      Nests (max m (n + 1)) (.phrase .primary) (ts ++ .opening .square :: us ++ [.closing .square])
        (.subscript e f)
  | member {n ts e} (text : String) (target : Nests n (.phrase .primary) ts e) :
      Nests n (.phrase .primary) (ts ++ [.symbol .dot, .name text]) (.member e text)
  | constant (c : Constant) : Nests 0 (.phrase .atom) [c.token] (.constant c)
  | name (text : String) : Nests 0 (.phrase .atom) [.name text] (.name text)
  | empty : Nests 0 (.phrase .atom) [.opening .round, .closing .round] (.tuple [])
  | group {n ts e} (inner : Nests n (.phrase .disjunction) ts e) :
      Nests (n + 1) (.phrase .atom) (.opening .round :: ts ++ [.closing .round]) e
  | tuple {m n ts us e es} (first : Nests m (.phrase .disjunction) ts e)
      (others : Nests n .items us es) :
      Nests (max m n + 1) (.phrase .atom)
        (.opening .round :: ts ++ .symbol .comma :: us ++ [.closing .round]) (.tuple (e :: es))
  | list {n ts es} (inner : Nests n .items ts es) :
      Nests (n + 1) (.phrase .atom) (.opening .square :: ts ++ [.closing .square]) (.list es)
  | noItem : Nests 0 .items [] []
  | lastItem {n ts e} (last : Nests n (.phrase .disjunction) ts e) : Nests n .items ts [e]
  | item {m n ts us e es} (first : Nests m (.phrase .disjunction) ts e)
      (others : Nests n .items us es) :
      Nests (max m n) .items (ts ++ .symbol .comma :: us) (e :: es)

variable {d n : Nat} {c : Category} {ts : List Token} {e : c.Tree}

/-- What goes no deeper than a bound is derived within it. -/
theorem Nests.derives (h : Nests n c ts e) (hbound : n ≤ d) : Derives d c ts e := by
  induction h generalizing d with
  | single _ ih => exact .single (ih hbound)
  | bareTuple _ _ ihfirst ihothers =>
    obtain ⟨hfirst, hothers⟩ := Nat.max_le.1 hbound
    exact .bareTuple (ihfirst hfirst) (ihothers hothers)
  | looser step _ ih => exact .looser step (ih hbound)
  | connected _ _ ihfirst ihothers =>
    obtain ⟨hfirst, hothers⟩ := Nat.max_le.1 hbound
    obtain ⟨k, rfl⟩ := Nat.exists_eq_add_of_lt hothers
    exact .connected (ihfirst hfirst) (ihothers (Nat.le_add_right _ k))
  | lastOperand _ ih => exact .lastOperand (ih hbound)
  | operand _ _ ihfirst ihothers =>
    obtain ⟨hfirst, hothers⟩ := Nat.max_le.1 hbound
    exact .operand (ihfirst hfirst) (ihothers hothers)
  | not _ ih =>
    obtain ⟨k, rfl⟩ := Nat.exists_eq_add_of_lt hbound
    exact .not (ih (Nat.le_add_right _ k))
  | compared _ _ ihfirst ihothers =>
    obtain ⟨hfirst, hothers⟩ := Nat.max_le.1 hbound
    obtain ⟨k, rfl⟩ := Nat.exists_eq_add_of_lt hothers
    exact .compared (ihfirst hfirst) (ihothers (Nat.le_add_right _ k))
  | lastComparison op _ ih => exact .lastComparison op (ih hbound)
  | comparison op _ _ ihfirst ihothers =>
    obtain ⟨hfirst, hothers⟩ := Nat.max_le.1 hbound
    exact .comparison op (ihfirst hfirst) (ihothers hothers)
  | binary mem _ _ ihleft ihright =>
    obtain ⟨hleft, hright⟩ := Nat.max_le.1 hbound
    obtain ⟨k, rfl⟩ := Nat.exists_eq_add_of_lt hright
    exact .binary mem (ihleft hleft) (ihright (Nat.le_add_right _ k))
  | signed sign _ ih =>
    obtain ⟨k, rfl⟩ := Nat.exists_eq_add_of_lt hbound
    exact .signed sign (ih (Nat.le_add_right _ k))
  | power _ _ ihbase ihexponent =>
    obtain ⟨hbase, hexponent⟩ := Nat.max_le.1 hbound
    obtain ⟨k, rfl⟩ := Nat.exists_eq_add_of_lt hexponent
    exact .power (ihbase hbase) (ihexponent (Nat.le_add_right _ k))
  | call _ _ ihcallee iharguments =>
    obtain ⟨hcallee, harguments⟩ := Nat.max_le.1 hbound
    obtain ⟨k, rfl⟩ := Nat.exists_eq_add_of_lt harguments
    exact .call (ihcallee hcallee) (iharguments (Nat.le_add_right _ k))
  | subscript _ _ ihtarget ihindex =>
    obtain ⟨htarget, hindex⟩ := Nat.max_le.1 hbound
    obtain ⟨k, rfl⟩ := Nat.exists_eq_add_of_lt hindex
    exact .subscript (ihtarget htarget) (ihindex (Nat.le_add_right _ k))
  | member text _ ih => exact .member text (ih hbound)
  | constant c => exact .constant c
  | name text => exact .name text
  | empty => exact .empty
  | group _ ih =>
    obtain ⟨k, rfl⟩ := Nat.exists_eq_add_of_lt hbound
    exact .group (ih (Nat.le_add_right _ k))
  | @tuple m n _ _ _ _ _ _ ihfirst ihothers =>
    obtain ⟨k, rfl⟩ := Nat.exists_eq_add_of_lt hbound
    have hinside : max m n ≤ max m n + k := Nat.le_add_right _ k
    obtain ⟨hfirst, hothers⟩ := Nat.max_le.1 hinside
    exact .tuple (ihfirst hfirst) (ihothers hothers)
  | list _ ih =>
    obtain ⟨k, rfl⟩ := Nat.exists_eq_add_of_lt hbound
    exact .list (ih (Nat.le_add_right _ k))
  | noItem => exact .noItem
  | lastItem _ ih => exact .lastItem (ih hbound)
  | item _ _ ihfirst ihothers =>
    obtain ⟨hfirst, hothers⟩ := Nat.max_le.1 hbound
    exact .item (ihfirst hfirst) (ihothers hothers)

theorem Nests.balanced (h : Nests n c ts e) : Balanced ts := (h.derives (Nat.le_refl n)).balanced

theorem Nests.signed_of_atom {e : Expr} (h : Nests n (.phrase .atom) ts e) :
    Nests n (.phrase .signed) ts e := by
  iterate 3 refine .looser rfl ?_
  exact h

theorem Nests.disjunction_of_signed {e : Expr} (h : Nests n (.phrase .signed) ts e) :
    Nests n (.phrase .disjunction) ts e := by
  iterate 10 refine .looser rfl ?_
  exact h

/-- What is derived within a bound goes no deeper. -/
theorem Derives.exists_nests (h : Derives d c ts e) : ∃ n ≤ d, Nests n c ts e := by
  induction h with
  | single _ ih =>
    obtain ⟨n, hn, hwhole⟩ := ih
    exact ⟨n, hn, .single hwhole⟩
  | bareTuple _ _ ihfirst ihothers =>
    obtain ⟨m, hm, hfirst⟩ := ihfirst
    obtain ⟨n, hn, hothers⟩ := ihothers
    exact ⟨max m n, Nat.max_le.2 ⟨hm, hn⟩, .bareTuple hfirst hothers⟩
  | looser step _ ih =>
    obtain ⟨n, hn, halone⟩ := ih
    exact ⟨n, hn, .looser step halone⟩
  | connected _ _ ihfirst ihothers =>
    obtain ⟨m, hm, hfirst⟩ := ihfirst
    obtain ⟨n, hn, hothers⟩ := ihothers
    exact ⟨max m (n + 1), Nat.max_le.2 ⟨hm, Nat.succ_le_succ hn⟩, .connected hfirst hothers⟩
  | lastOperand _ ih =>
    obtain ⟨n, hn, hlast⟩ := ih
    exact ⟨n, hn, .lastOperand hlast⟩
  | operand _ _ ihfirst ihothers =>
    obtain ⟨m, hm, hfirst⟩ := ihfirst
    obtain ⟨n, hn, hothers⟩ := ihothers
    exact ⟨max m n, Nat.max_le.2 ⟨hm, hn⟩, .operand hfirst hothers⟩
  | not _ ih =>
    obtain ⟨n, hn, hoperand⟩ := ih
    exact ⟨n + 1, Nat.succ_le_succ hn, .not hoperand⟩
  | compared _ _ ihfirst ihothers =>
    obtain ⟨m, hm, hfirst⟩ := ihfirst
    obtain ⟨n, hn, hothers⟩ := ihothers
    exact ⟨max m (n + 1), Nat.max_le.2 ⟨hm, Nat.succ_le_succ hn⟩, .compared hfirst hothers⟩
  | lastComparison op _ ih =>
    obtain ⟨n, hn, hlast⟩ := ih
    exact ⟨n, hn, .lastComparison op hlast⟩
  | comparison op _ _ ihfirst ihothers =>
    obtain ⟨m, hm, hfirst⟩ := ihfirst
    obtain ⟨n, hn, hothers⟩ := ihothers
    exact ⟨max m n, Nat.max_le.2 ⟨hm, hn⟩, .comparison op hfirst hothers⟩
  | binary mem _ _ ihleft ihright =>
    obtain ⟨m, hm, hleft⟩ := ihleft
    obtain ⟨n, hn, hright⟩ := ihright
    exact ⟨max m (n + 1), Nat.max_le.2 ⟨hm, Nat.succ_le_succ hn⟩, .binary mem hleft hright⟩
  | signed sign _ ih =>
    obtain ⟨n, hn, hoperand⟩ := ih
    exact ⟨n + 1, Nat.succ_le_succ hn, .signed sign hoperand⟩
  | power _ _ ihbase ihexponent =>
    obtain ⟨m, hm, hbase⟩ := ihbase
    obtain ⟨n, hn, hexponent⟩ := ihexponent
    exact ⟨max m (n + 1), Nat.max_le.2 ⟨hm, Nat.succ_le_succ hn⟩, .power hbase hexponent⟩
  | call _ _ ihcallee iharguments =>
    obtain ⟨m, hm, hcallee⟩ := ihcallee
    obtain ⟨n, hn, harguments⟩ := iharguments
    exact ⟨max m (n + 1), Nat.max_le.2 ⟨hm, Nat.succ_le_succ hn⟩, .call hcallee harguments⟩
  | subscript _ _ ihtarget ihindex =>
    obtain ⟨m, hm, htarget⟩ := ihtarget
    obtain ⟨n, hn, hindex⟩ := ihindex
    exact ⟨max m (n + 1), Nat.max_le.2 ⟨hm, Nat.succ_le_succ hn⟩, .subscript htarget hindex⟩
  | member text _ ih =>
    obtain ⟨n, hn, htarget⟩ := ih
    exact ⟨n, hn, .member text htarget⟩
  | constant c => exact ⟨0, Nat.zero_le _, .constant c⟩
  | name text => exact ⟨0, Nat.zero_le _, .name text⟩
  | empty => exact ⟨0, Nat.zero_le _, .empty⟩
  | group _ ih =>
    obtain ⟨n, hn, hinner⟩ := ih
    exact ⟨n + 1, Nat.succ_le_succ hn, .group hinner⟩
  | tuple _ _ ihfirst ihothers =>
    obtain ⟨m, hm, hfirst⟩ := ihfirst
    obtain ⟨n, hn, hothers⟩ := ihothers
    exact ⟨max m n + 1, Nat.succ_le_succ (Nat.max_le.2 ⟨hm, hn⟩), .tuple hfirst hothers⟩
  | list _ ih =>
    obtain ⟨n, hn, hinner⟩ := ih
    exact ⟨n + 1, Nat.succ_le_succ hn, .list hinner⟩
  | noItem => exact ⟨0, Nat.zero_le _, .noItem⟩
  | lastItem _ ih =>
    obtain ⟨n, hn, hlast⟩ := ih
    exact ⟨n, hn, .lastItem hlast⟩
  | item _ _ ihfirst ihothers =>
    obtain ⟨m, hm, hfirst⟩ := ihfirst
    obtain ⟨n, hn, hothers⟩ := ihothers
    exact ⟨max m n, Nat.max_le.2 ⟨hm, hn⟩, .item hfirst hothers⟩

end Abacus
