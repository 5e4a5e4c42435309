import Abacus.Proofs.Grammar.Binding

namespace Abacus

/-- The tokens are the front of some that make up the category. -/
def Begins (c : Category) (us : List Token) : Prop := ∃ d vs e, Derives d c (us ++ vs) e

namespace Derives

variable {d : Nat} {c : Category} {us : List Token} {e : c.Tree}

theorem begins (h : Derives d c us e) : Begins c us := by
  refine ⟨d, [], e, ?_⟩
  rwa [List.append_nil]

end Derives

namespace Begins

variable {d : Nat} {c c' : Category} {p q : Phrase} {us vs : List Token} {t : c'.Tree} {e : Expr}

theorem front (vs : List Token) (h : Begins c (us ++ vs)) : Begins c us := by
  obtain ⟨d, ws, e, h⟩ := h
  refine ⟨d, vs ++ ws, e, ?_⟩
  rwa [← List.append_assoc]

theorem nil (p : Phrase) : Begins (.phrase p) [] :=
  ⟨0, [.name ""], .name "", (Derives.name "").loosen p.precedence_le_atom⟩

/-- A depth that is enough for what stands before and for a completion of the part. -/
theorem beside (hbefore : Derives d c' us t) (h : Begins c vs) :
    ∃ n ws e, Derives n c' us t ∧ Derives n c (vs ++ ws) e := by
  obtain ⟨m, ws, e, h⟩ := h
  exact ⟨max d m, ws, e, hbefore.deepen (Nat.le_max_left d m), h.deepen (Nat.le_max_right d m)⟩

theorem loosen (h : Begins (.phrase q) us) (hle : p.precedence ≤ q.precedence) :
    Begins (.phrase p) us := by
  obtain ⟨d, ws, e, h⟩ := h
  exact ⟨d, ws, e, Derives.loosen h hle⟩

theorem single (h : Begins (.phrase .disjunction) us) : Begins .sentence us := by
  obtain ⟨d, ws, e, h⟩ := h
  exact ⟨d, ws, e, .single h⟩

theorem bareTuple (hfirst : Derives d (.phrase .disjunction) us e) (h : Begins .items vs) :
    Begins .sentence (us ++ .symbol .comma :: vs) := by
  obtain ⟨n, ws, es, hfirst, hothers⟩ := h.beside hfirst
  apply front ws
  simpa using (Derives.bareTuple hfirst hothers).begins

theorem lastItem (h : Begins (.phrase .disjunction) us) : Begins .items us := by
  obtain ⟨d, ws, e, h⟩ := h
  exact ⟨d, ws, _, .lastItem h⟩

theorem item (hfirst : Derives d (.phrase .disjunction) us e) (h : Begins .items vs) :
    Begins .items (us ++ .symbol .comma :: vs) := by
  obtain ⟨n, ws, es, hfirst, hothers⟩ := h.beside hfirst
  apply front ws
  simpa using (Derives.item hfirst hothers).begins

theorem group (h : Begins (.phrase .disjunction) us) :
    Begins (.phrase .atom) (.opening .round :: us) := by
  obtain ⟨d, ws, e, h⟩ := h
  apply front (ws ++ [.closing .round])
  simpa using (Derives.group h).begins

theorem tuple (hfirst : Derives d (.phrase .disjunction) us e) (h : Begins .items vs) :
    Begins (.phrase .atom) (.opening .round :: us ++ .symbol .comma :: vs) := by
  obtain ⟨n, ws, es, hfirst, hothers⟩ := h.beside hfirst
  apply front (ws ++ [.closing .round])
  simpa using (Derives.tuple hfirst hothers).begins

theorem list (h : Begins .items us) : Begins (.phrase .atom) (.opening .square :: us) := by
  obtain ⟨d, ws, es, h⟩ := h
  apply front (ws ++ [.closing .square])
  simpa using (Derives.list h).begins

theorem call (hcallee : Derives d (.phrase .primary) us e) (h : Begins .items vs) :
    Begins (.phrase .primary) (us ++ .opening .round :: vs) := by
  obtain ⟨n, ws, es, hcallee, harguments⟩ := h.beside hcallee
  apply front (ws ++ [.closing .round])
  simpa using (Derives.call hcallee.deeper harguments).begins

theorem subscript (htarget : Derives d (.phrase .primary) us e) (h : Begins (.phrase .disjunction) vs) :
    Begins (.phrase .primary) (us ++ .opening .square :: vs) := by
  obtain ⟨n, ws, f, htarget, hindex⟩ := h.beside htarget
  apply front (ws ++ [.closing .square])
  simpa using (Derives.subscript htarget.deeper hindex).begins

theorem member (htarget : Derives d (.phrase .primary) us e) :
    Begins (.phrase .primary) (us ++ [.symbol .dot]) := by
  apply front [.name ""]
  simpa using (Derives.member "" htarget).begins

theorem power (hbase : Derives d (.phrase .primary) us e) (h : Begins (.phrase .signed) vs) :
    Begins (.phrase .power) (us ++ .symbol .doubleStar :: vs) := by
  obtain ⟨n, ws, f, hbase, hexponent⟩ := h.beside hbase
  apply front ws
  simpa using (Derives.power hbase.deeper hexponent).begins

theorem not (h : Begins (.phrase .negation) us) :
    Begins (.phrase .negation) (.keyword .not :: us) := by
  obtain ⟨d, ws, e, h⟩ := h
  exact ⟨d + 1, ws, _, .not h⟩

theorem signed {op : UnaryOp} (sign : op ≠ .not) (h : Begins (.phrase .signed) us) :
    Begins (.phrase .signed) (op.token :: us) := by
  obtain ⟨d, ws, e, h⟩ := h
  exact ⟨d + 1, ws, _, .signed sign h⟩

theorem binary {level : Level} {op : BinaryOp} (mem : op ∈ level.operators)
    (hleft : Derives d (.phrase (.binary level)) us e) (h : Begins (.phrase level.operand) vs) :
    Begins (.phrase (.binary level)) (us ++ .symbol op.symbol :: vs) := by
  obtain ⟨n, ws, f, hleft, hright⟩ := h.beside hleft
  apply front ws
  simpa using (Derives.binary mem hleft.deeper hright).begins

theorem lastOperand {op : Connective} (h : Begins (.phrase op.operand) us) : Begins (.operands op) us := by
  obtain ⟨d, ws, e, h⟩ := h
  exact ⟨d, ws, _, .lastOperand h⟩

theorem operand {op : Connective} (hfirst : Derives d (.phrase op.operand) us e)
    (h : Begins (.operands op) vs) : Begins (.operands op) (us ++ op.token :: vs) := by
  obtain ⟨n, ws, es, hfirst, hothers⟩ := h.beside hfirst
  apply front ws
  simpa using (Derives.operand hfirst hothers).begins

theorem connected {op : Connective} (hfirst : Derives d (.phrase op.operand) us e)
    (h : Begins (.operands op) vs) : Begins (.phrase op.chain) (us ++ op.token :: vs) := by
  obtain ⟨n, ws, es, hfirst, hothers⟩ := h.beside hfirst
  apply front ws
  simpa using (Derives.connected hfirst.deeper hothers).begins

theorem lastComparison (op : Comparison) (h : Begins (.phrase (.binary .bitOr)) us) :
    Begins .comparisons (.symbol op.symbol :: us) := by
  obtain ⟨d, ws, e, h⟩ := h
  exact ⟨d, ws, _, .lastComparison op h⟩

theorem comparison (op : Comparison) (hfirst : Derives d (.phrase (.binary .bitOr)) us e)
    (h : Begins .comparisons vs) : Begins .comparisons (.symbol op.symbol :: us ++ vs) := by
  obtain ⟨n, ws, es, hfirst, hothers⟩ := h.beside hfirst
  apply front ws
  simpa using (Derives.comparison op hfirst hothers).begins

theorem compared (hfirst : Derives d (.phrase (.binary .bitOr)) us e) (h : Begins .comparisons vs) :
    Begins (.phrase .comparison) (us ++ vs) := by
  obtain ⟨n, ws, es, hfirst, hothers⟩ := h.beside hfirst
  apply front ws
  simpa using (Derives.compared hfirst.deeper hothers).begins

end Begins

end Abacus
