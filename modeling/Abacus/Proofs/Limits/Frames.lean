import Abacus.Proofs.Grammar.Place
import Abacus.Proofs.Limits.Nests

namespace Abacus

/-- What is open around a token: a bracket, or an operator whose right side is an operand that takes
links which bind at least so tightly. -/
inductive Frame where
  | bracket
  | operand (least : Nat)
  deriving DecidableEq, Repr

/-- A link that binds so tightly ends the operand. -/
def Frame.endsAt (precedence : Nat) : Frame → Bool
  | bracket => false
  | operand least => precedence < least

/-- The links that the operand of a sign or a `not` takes. -/
def UnaryOp.least : UnaryOp → Nat
  | not => Precedence.not
  | pos | neg | invert => Precedence.operand

/-- Where a walk over tokens is: whether an operand is due, and what is open, innermost first. -/
structure Spot where
  due : Bool
  frames : List Frame

namespace Spot

/-- A comma and a closing bracket end all operands up to the bracket around them. -/
def after (s : Spot) (t : Token) : Spot :=
  match t with
  | .opening _ => ⟨true, .bracket :: s.frames⟩
  | .closing _ => ⟨false, (s.frames.dropWhile (Frame.endsAt 0)).tail⟩
  | .symbol .comma => ⟨true, s.frames.dropWhile (Frame.endsAt 0)⟩
  | .symbol .doubleStar => ⟨true, .operand Precedence.operand :: s.frames⟩
  | t =>
    if t.isLeaf then ⟨false, s.frames⟩
    else if s.due then
      match UnaryOp.ofToken? t with
      | some op => ⟨true, .operand op.least :: s.frames⟩
      | none => ⟨true, s.frames⟩
    else
      match Link.ofToken? t with
      | some link =>
        ⟨true, .operand (link.precedence + 1) :: s.frames.dropWhile (Frame.endsAt link.precedence)⟩
      | none => ⟨true, s.frames⟩

/-- How much is open at a token. A parenthesis that opens an operand may turn out to be empty, and
does not count until something stands in it. -/
def depthAt (s : Spot) (t : Token) : Nat :=
  if s.due ∧ t = .opening .round then s.frames.length else (s.after t).frames.length

def run (s : Spot) : List Token → Spot
  | [] => s
  | t :: ts => (s.after t).run ts

/-- How much is open at the deepest of the tokens. -/
def deepest (s : Spot) : List Token → Nat
  | [] => 0
  | t :: ts => max (s.depthAt t) ((s.after t).deepest ts)

variable {s : Spot} {S : List Frame} {ts us : List Token} {t : Token}

theorem run_append (s : Spot) (ts us : List Token) : s.run (ts ++ us) = (s.run ts).run us := by
  induction ts generalizing s with
  | nil => rfl
  | cons t ts ih => exact ih (s.after t)

theorem deepest_append (s : Spot) (ts us : List Token) :
    s.deepest (ts ++ us) = max (s.deepest ts) ((s.run ts).deepest us) := by
  induction ts generalizing s with
  | nil => exact (Nat.zero_max _).symm
  | cons t ts ih =>
    rw [List.cons_append, deepest, ih, deepest, Nat.max_assoc]
    rfl

theorem depthAt_of_ne (h : t ≠ .opening .round) (s : Spot) :
    s.depthAt t = (s.after t).frames.length :=
  if_neg fun hround => h hround.2

theorem after_leaf (h : t.isLeaf) (s : Spot) : s.after t = ⟨false, s.frames⟩ := by
  cases t with
  | symbol sign => cases sign <;> first | rfl | cases h
  | keyword word => cases word <;> first | rfl | cases h
  | opening | closing | eof => cases h
  | _ => rfl

theorem after_dot (s : Spot) : s.after (.symbol .dot) = ⟨true, s.frames⟩ := by
  obtain ⟨due, S⟩ := s
  cases due <;> rfl

theorem after_unary (op : UnaryOp) (S : List Frame) :
    (⟨true, S⟩ : Spot).after op.token = ⟨true, .operand op.least :: S⟩ := by
  cases op <;> rfl

theorem after_link {link : Link} (h : Link.ofToken? t = some link) (S : List Frame) :
    (⟨false, S⟩ : Spot).after t =
      ⟨true, .operand (link.precedence + 1) :: S.dropWhile (Frame.endsAt link.precedence)⟩ := by
  cases t with
  | symbol sign => cases sign <;> cases h <;> rfl
  | keyword word => cases word <;> cases h <;> rfl
  | _ => cases h

end Spot

/-- The innermost frame goes on behind a link that binds so tightly. -/
def Firm (precedence : Nat) (S : List Frame) : Prop := ∀ f ∈ S.head?, f.endsAt precedence = false

/-- How tightly the operands that a phrase leaves open at its end bind at least. -/
def Phrase.floor : Phrase → Nat
  | disjunction => Precedence.or + 1
  | conjunction => Precedence.and + 1
  | negation => Precedence.not
  | comparison => Precedence.comparison + 1
  | binary level => level.precedence + 1
  | signed | power => Precedence.operand
  | primary | atom => Precedence.operand + 1

/-- The frame is one that a phrase may leave open at its end. -/
def Phrase.Leaves (p : Phrase) (f : Frame) : Prop :=
  ∃ least, f = .operand least ∧ p.floor ≤ least ∧ least ≤ Precedence.operand

/-- The walk over the tokens of a phrase ends in the frames around it, but for what the phrase leaves
open, and it is inside so many more than these on the way. -/
def Spot.Leads (s : Spot) (ts : List Token) (due : Bool) (p : Phrase) (S : List Frame) (n : Nat) :
    Prop :=
  ∃ ext, (∀ f ∈ ext, p.Leaves f) ∧ s.run ts = ⟨due, ext ++ S⟩ ∧
    max s.frames.length (s.deepest ts) = S.length + n

variable {s next : Spot} {S ext : List Frame} {ts us : List Token} {t : Token} {due : Bool}
  {p q : Phrase} {m n low high : Nat} {f : Frame}

theorem Firm.mono (h : Firm low S) (hle : low ≤ high) : Firm high S := by
  intro f hf
  have hfirm := h f hf
  cases f with
  | bracket => rfl
  | operand least =>
    simp only [Frame.endsAt, decide_eq_false_iff_not, Nat.not_lt] at hfirm ⊢
    exact Nat.le_trans hfirm hle

theorem firm_bracket (precedence : Nat) (S : List Frame) : Firm precedence (.bracket :: S) := by
  intro f hf
  cases hf
  rfl

theorem firm_nil (precedence : Nat) : Firm precedence [] := by
  intro f hf
  cases hf

theorem firm_operand {least precedence : Nat} (h : least ≤ precedence) (S : List Frame) :
    Firm precedence (.operand least :: S) := by
  intro f hf
  cases hf
  exact decide_eq_false (Nat.not_lt.2 h)

theorem Firm.dropWhile_append (h : Firm low S) (hext : ∀ f ∈ ext, f.endsAt low) :
    (ext ++ S).dropWhile (Frame.endsAt low) = S := by
  rw [List.dropWhile_append_of_pos hext]
  cases S with
  | nil => rfl
  | cons f S => exact List.dropWhile_cons_of_neg (by rw [h f rfl]; decide)

namespace Phrase.Leaves

theorem endsAt (h : p.Leaves f) (hlow : low < p.floor) : f.endsAt low := by
  obtain ⟨least, rfl, hfloor, _⟩ := h
  exact decide_eq_true (Nat.lt_of_lt_of_le hlow hfloor)

theorem mono (h : q.Leaves f) (hle : p.floor ≤ q.floor) : p.Leaves f := by
  obtain ⟨least, rfl, hfloor, hleast⟩ := h
  exact ⟨least, rfl, Nat.le_trans hle hfloor, hleast⟩

/-- Behind a primary no operand is open. -/
theorem eq_nil (h : ∀ f ∈ ext, Phrase.primary.Leaves f) : ext = [] := by
  cases ext with
  | nil => rfl
  | cons f ext =>
    obtain ⟨least, _, hfloor, hleast⟩ := h f List.mem_cons_self
    exact absurd (Nat.le_trans hfloor hleast) (by decide)

end Phrase.Leaves

theorem Phrase.floor_of_tighter (h : p.tighter? = some q) : p.floor ≤ q.floor := by
  cases p with
  | binary level => cases level <;> cases h <;> decide
  | atom => cases h
  | _ =>
    cases h
    decide

theorem Phrase.floor_pos (p : Phrase) : 0 < p.floor := by
  cases p <;> exact Nat.succ_pos _

theorem Connective.floor_chain (op : Connective) : op.chain.floor = op.precedence + 1 := by
  cases op <;> rfl

theorem Connective.floor_operand (op : Connective) : op.chain.floor ≤ op.operand.floor := by
  cases op <;> decide

namespace Spot.Leads

theorem mono (h : s.Leads ts due q S n) (hle : p.floor ≤ q.floor) : s.Leads ts due p S n := by
  obtain ⟨ext, hext, hrest⟩ := h
  exact ⟨ext, fun f hf => (hext f hf).mono hle, hrest⟩

/-- What lies inside a frame that is left open lies one deeper in those around it. -/
theorem inside (h : s.Leads ts due q (f :: S) n) (hf : p.Leaves f) (hle : p.floor ≤ q.floor) :
    s.Leads ts due p S (n + 1) := by
  obtain ⟨ext, hext, hrun, hdeep⟩ := h
  refine ⟨ext ++ [f], ?_, ?_, ?_⟩
  · intro g hg
    rcases List.mem_append.1 hg with hg | hg
    · exact (hext g hg).mono hle
    · rw [List.mem_singleton.1 hg]
      exact hf
  · rw [hrun, List.append_assoc]
    rfl
  · rw [hdeep, List.length_cons]
    omega

/-- The operand of an operator is a phrase inside its frame. -/
theorem operand {least : Nat}
    (h : ∀ S, Firm q.precedence S → (⟨true, S⟩ : Spot).Leads ts due q S n)
    (hleast : least ≤ q.precedence) (hfloor : p.floor ≤ least) (hmax : least ≤ Precedence.operand)
    (hle : p.floor ≤ q.floor) (S : List Frame) :
    (⟨true, .operand least :: S⟩ : Spot).Leads ts due p S (n + 1) :=
  (h _ (firm_operand hleast S)).inside ⟨least, rfl, hfloor, hmax⟩ hle

/-- A token goes on from an operand, and what follows it starts inside the frames that stay. -/
theorem across (h : s.Leads ts false p S m)
    (hafter : ∀ ext, (∀ f ∈ ext, p.Leaves f) → (⟨false, ext ++ S⟩ : Spot).after t = next)
    (hnext : next.Leads us due q S n) : s.Leads (ts ++ t :: us) due q S (max m n) := by
  obtain ⟨ext, hext, hrun, hdeep⟩ := h
  obtain ⟨last, hlast, hrunNext, hdeepNext⟩ := hnext
  have hdepth : (⟨false, ext ++ S⟩ : Spot).depthAt t = next.frames.length := by
    rw [depthAt, if_neg (by simp), hafter ext hext]
  refine ⟨last, hlast, ?_, ?_⟩
  · rw [run_append, hrun, run, hafter ext hext, hrunNext]
  · rw [deepest_append, hrun, deepest, hdepth, hafter ext hext]
    omega

theorem link {link : Link} (h : s.Leads ts false p S m) (ht : Link.ofToken? t = some link)
    (hfirm : Firm link.precedence S) (hlow : link.precedence < p.floor)
    (hnext : (⟨true, .operand (link.precedence + 1) :: S⟩ : Spot).Leads us due q S n) :
    s.Leads (ts ++ t :: us) due q S (max m n) := by
  refine h.across (fun ext hext => ?_) hnext
  rw [after_link ht, hfirm.dropWhile_append fun f hf => (hext f hf).endsAt hlow]

theorem comma (h : s.Leads ts false p S m) (hfirm : Firm 0 S)
    (hnext : (⟨true, S⟩ : Spot).Leads us due q S n) :
    s.Leads (ts ++ .symbol .comma :: us) due q S (max m n) := by
  refine h.across (fun ext hext => ?_) hnext
  change (⟨true, (ext ++ S).dropWhile (Frame.endsAt 0)⟩ : Spot) = _
  rw [hfirm.dropWhile_append fun f hf => (hext f hf).endsAt p.floor_pos]

/-- A token at the front adds a frame, or none. -/
theorem front (h : next.Leads us due p S n) (hafter : s.after t = next)
    (hround : t ≠ .opening .round) (hlength : s.frames.length ≤ next.frames.length) :
    s.Leads (t :: us) due p S n := by
  obtain ⟨ext, hext, hrun, hdeep⟩ := h
  refine ⟨ext, hext, ?_, ?_⟩
  · rw [run, hafter, hrun]
  · rw [deepest, depthAt_of_ne hround, hafter, ← hdeep]
    omega

theorem closing {bracket : Bracket} (h : s.Leads ts due q (.bracket :: S) n) :
    s.Leads (ts ++ [.closing bracket]) false p S (n + 1) := by
  obtain ⟨ext, hext, hrun, hdeep⟩ := h
  have hafter : (⟨due, ext ++ .bracket :: S⟩ : Spot).after (.closing bracket) = ⟨false, S⟩ := by
    change (⟨false, ((ext ++ .bracket :: S).dropWhile (Frame.endsAt 0)).tail⟩ : Spot) = _
    rw [(firm_bracket 0 S).dropWhile_append fun f hf => (hext f hf).endsAt q.floor_pos]
    rfl
  refine ⟨[], List.forall_mem_nil _, ?_, ?_⟩
  · rw [run_append, hrun, run, hafter]
    rfl
  · rw [List.length_cons] at hdeep
    rw [deepest_append, hrun, deepest, depthAt_of_ne Token.noConfusion, hafter, deepest]
    dsimp only
    omega

theorem leaf (ht : t.isLeaf) (S : List Frame) : (⟨true, S⟩ : Spot).Leads [t] false p S 0 := by
  have hround : t ≠ .opening .round := by
    rintro rfl
    cases ht
  refine ⟨[], List.forall_mem_nil _, ?_, ?_⟩
  · rw [run, after_leaf ht]
    rfl
  · rw [deepest, depthAt_of_ne hround, after_leaf ht, deepest]
    simp

theorem noToken (S : List Frame) : (⟨true, S⟩ : Spot).Leads [] true p S 0 :=
  ⟨[], List.forall_mem_nil _, rfl, Nat.max_zero _⟩

theorem empty (S : List Frame) :
    (⟨true, S⟩ : Spot).Leads [.opening .round, .closing .round] false p S 0 := by
  have hopening : (⟨true, S⟩ : Spot).depthAt (.opening .round) = S.length := if_pos ⟨rfl, rfl⟩
  have hclosing : (⟨true, .bracket :: S⟩ : Spot).depthAt (.closing .round) = S.length :=
    depthAt_of_ne Token.noConfusion _
  refine ⟨[], List.forall_mem_nil _, rfl, ?_⟩
  have hafter : (⟨true, S⟩ : Spot).after (.opening .round) = ⟨true, .bracket :: S⟩ := rfl
  rw [deepest, hopening, hafter, deepest, hclosing, deepest]
  simp

/-- What stands in parentheses as an operand, if it is anything. -/
theorem parenthesised (h : (⟨true, .bracket :: S⟩ : Spot).Leads ts due q (.bracket :: S) n)
    (hinside : (Frame.bracket :: S).length ≤ (⟨true, .bracket :: S⟩ : Spot).deepest ts) :
    (⟨true, S⟩ : Spot).Leads (.opening .round :: ts ++ [.closing .round]) false p S (n + 1) := by
  have hclosing : (⟨true, .bracket :: S⟩ : Spot).Leads (ts ++ [.closing .round]) false p S (n + 1) :=
    h.closing
  obtain ⟨ext, hext, hrun, hdeep⟩ := hclosing
  refine ⟨ext, hext, hrun, ?_⟩
  have hdepth : (⟨true, S⟩ : Spot).depthAt (.opening .round) = S.length := if_pos ⟨rfl, rfl⟩
  have hafter : (⟨true, S⟩ : Spot).after (.opening .round) = ⟨true, .bracket :: S⟩ := rfl
  rw [deepest_append] at hdeep
  rw [List.cons_append, deepest, hdepth, hafter, deepest_append, ← hdeep]
  dsimp only at hdeep ⊢
  rw [List.length_cons] at hinside ⊢
  omega

end Spot.Leads

/-- No token that starts an operand closes anything. -/
theorem Spot.le_depthAt (h : (Place.operand.after t).isSome) (S : List Frame) :
    S.length ≤ (⟨true, S⟩ : Spot).depthAt t := by
  by_cases hround : t = .opening .round
  · have hdepth : (⟨true, S⟩ : Spot).depthAt t = S.length := if_pos ⟨rfl, hround⟩
    exact Nat.le_of_eq hdepth.symm
  rw [depthAt_of_ne hround]
  change (Place.afterOperand true false t).isSome at h
  unfold Place.afterOperand at h
  split at h
  · rename_i hleaf
    have hframes : ((⟨true, S⟩ : Spot).after t).frames = S := by rw [after_leaf hleaf]
    exact Nat.le_of_eq (congrArg List.length hframes).symm
  · split at h
    · exact Nat.le_succ _
    · cases h
    · split at h
      · rename_i hsign
        obtain ⟨op, hop⟩ := Option.isSome_iff_exists.1 hsign
        rw [UnaryOp.eq_token hop, after_unary]
        exact Nat.le_succ _
      · cases h

theorem Nests.le_deepest {e : Expr} (h : Nests n (.phrase p) ts e) (S : List Frame) :
    S.length ≤ (⟨true, S⟩ : Spot).deepest ts := by
  have hrun := Phrase.run_operand (h.derives (Nat.le_refl n)).walks
  obtain ⟨t, us, rfl, ht⟩ := Place.exists_head hrun Place.noConfusion
  exact Nat.le_trans (Spot.le_depthAt ht S) (Nat.le_max_left _ _)

/-- The walk over what a category derives. Behind the first operand of a chain it starts inside the
chain. -/
def Category.Leads (n : Nat) : Category → List Token → Prop
  | phrase p, ts => ∀ S, Firm p.precedence S → (⟨true, S⟩ : Spot).Leads ts false p S n
  | operands op, ts => ∀ S, Firm op.precedence S →
      (⟨true, .operand (op.precedence + 1) :: S⟩ : Spot).Leads ts false op.chain S (n + 1)
  | comparisons, ts => ∃ op us, ts = .symbol (Comparison.symbol op) :: us ∧
      ∀ S, Firm Precedence.comparison S →
        (⟨true, .operand (Precedence.comparison + 1) :: S⟩ : Spot).Leads us false .comparison S (n + 1)
  | items, ts => ∃ due, ∀ S, Firm 0 S → (⟨true, S⟩ : Spot).Leads ts due .disjunction S n
  | sentence, ts => ∃ due, (⟨true, []⟩ : Spot).Leads ts due .disjunction [] n

theorem Constant.isLeaf_token (c : Constant) : c.token.isLeaf := by
  cases c with
  | bool b => cases b <;> rfl
  | _ => rfl

theorem Connective.leads_operand {op : Connective} (h : Category.Leads n (.phrase op.operand) ts)
    (S : List Frame) :
    (⟨true, .operand (op.precedence + 1) :: S⟩ : Spot).Leads ts false op.chain S (n + 1) := by
  refine Spot.Leads.operand h ?_ ?_ (by cases op <;> decide) op.floor_operand S
  · exact Nat.le_of_eq op.precedence_operand.symm
  · exact Nat.le_of_eq op.floor_chain

theorem leads_comparison (h : Category.Leads n (.phrase (.binary .bitOr)) ts) (S : List Frame) :
    (⟨true, .operand (Precedence.comparison + 1) :: S⟩ : Spot).Leads ts false .comparison S (n + 1) :=
  Spot.Leads.operand h (by decide) (by decide) (by decide) (by decide) S

/-- Arguments, items and subscripts. -/
theorem leads_bracket (h : ∀ S, Firm 0 S → (⟨true, S⟩ : Spot).Leads ts due q S n) (bracket : Bracket)
    (S : List Frame) :
    (⟨true, .bracket :: S⟩ : Spot).Leads (ts ++ [.closing bracket]) false p S (n + 1) :=
  (h _ (firm_bracket 0 S)).closing

theorem Nests.leads {c : Category} {e : c.Tree} (h : Nests n c ts e) : c.Leads n ts := by
  -- The frames around the tokens are any that no link of the phrase would end, so that the parts of a
  -- phrase can be walked inside the frames that the phrase itself adds.
  induction h with
  | single _ ih => exact ⟨false, ih [] (firm_nil _)⟩
  | bareTuple _ _ ihfirst ihothers =>
    obtain ⟨due, hothers⟩ := ihothers
    exact ⟨due, (ihfirst [] (firm_nil _)).comma (firm_nil 0) (hothers [] (firm_nil 0))⟩
  | looser step _ ih =>
    intro S hfirm
    have hle := Nat.le_trans (Nat.le_succ _) (Nat.le_of_eq (Phrase.precedence_tighter step).symm)
    exact (ih S (hfirm.mono hle)).mono (Phrase.floor_of_tighter step)
  | @connected m n op ts us e es _ _ ihfirst ihothers =>
    intro S hfirm
    rw [op.precedence_chain] at hfirm
    have hfirst := ihfirst S (hfirm.mono (by rw [op.precedence_operand]; exact Nat.le_succ _))
    have hlow : op.precedence < op.operand.floor := by
      have hfloor := op.floor_operand
      rw [op.floor_chain] at hfloor
      exact hfloor
    exact hfirst.link (Link.ofToken?_connective op) hfirm hlow (ihothers S hfirm)
  | lastOperand _ ih => exact fun S _ => Connective.leads_operand ih S
  | @operand m n op ts us e es _ _ ihfirst ihothers =>
    intro S hfirm
    have hfirst := Connective.leads_operand ihfirst S
    have hlow : op.precedence < op.chain.floor := by
      rw [op.floor_chain]
      exact Nat.lt_succ_self _
    rw [← Nat.add_max_add_right]
    exact hfirst.link (Link.ofToken?_connective op) hfirm hlow (ihothers S hfirm)
  | @not n ts e _ ih =>
    intro S _
    have hoperand :
        (⟨true, .operand UnaryOp.not.least :: S⟩ : Spot).Leads ts false .negation S (n + 1) :=
      .operand ih (by decide) (by decide) (by decide) (by decide) S
    exact hoperand.front (Spot.after_unary .not S) Token.noConfusion (Nat.le_succ _)
  | @compared m n ts us e es _ _ ihfirst ihothers =>
    obtain ⟨op, us, rfl, hothers⟩ := ihothers
    intro S hfirm
    have hfirst := ihfirst S (hfirm.mono (by decide))
    have hlow : Precedence.comparison < (Phrase.binary .bitOr).floor := by decide
    exact hfirst.link (Link.ofToken?_comparison op) hfirm hlow (hothers S hfirm)
  | lastComparison op _ ih => exact ⟨op, _, rfl, fun S _ => leads_comparison ih S⟩
  | @comparison m n ts us e es op _ _ ihfirst ihothers =>
    obtain ⟨op', us, rfl, hothers⟩ := ihothers
    refine ⟨op, _, rfl, fun S hfirm => ?_⟩
    have hlow : Precedence.comparison < Phrase.comparison.floor := by decide
    rw [← Nat.add_max_add_right]
    exact (leads_comparison ihfirst S).link (Link.ofToken?_comparison op') hfirm hlow
      (hothers S hfirm)
  | @binary m n level op ts us e f mem _ _ ihleft ihright =>
    intro S hfirm
    have hprecedence : (Link.arithmetic op).precedence = level.precedence :=
      Level.precedence_of_mem mem
    have hlink := Link.ofToken?_symbol mem
    have hright := Spot.Leads.operand (p := .binary level) ihright
      (Nat.le_of_eq level.precedence_operand.symm) (Nat.le_refl _) (by cases level <;> decide)
      (Phrase.floor_of_tighter rfl) S
    refine (ihleft S hfirm).link hlink ?_ ?_ ?_
    · rw [hprecedence]
      exact hfirm
    · rw [hprecedence]
      exact Nat.lt_succ_self _
    · rw [hprecedence]
      exact hright
  | @signed n op ts e sign _ ih =>
    intro S _
    have hleast : op.least = Precedence.operand := by
      cases op with
      | not => exact absurd rfl sign
      | _ => rfl
    have hoperand : (⟨true, .operand op.least :: S⟩ : Spot).Leads ts false .signed S (n + 1) := by
      rw [hleast]
      exact .operand ih (Nat.le_refl _) (Nat.le_refl _) (Nat.le_refl _) (Nat.le_refl _) S
    exact hoperand.front (Spot.after_unary op S) (by cases op <;> exact Token.noConfusion)
      (Nat.le_succ _)
  | power _ _ ihbase ihexponent =>
    intro S hfirm
    have hexponent := Spot.Leads.operand (p := .power) ihexponent (Nat.le_refl _) (by decide)
      (Nat.le_refl _) (by decide) S
    refine (ihbase S (hfirm.mono (by decide))).across (fun ext hext => ?_) hexponent
    rw [Phrase.Leaves.eq_nil hext]
    rfl
  | call _ _ ihcallee iharguments =>
    intro S hfirm
    obtain ⟨due, harguments⟩ := iharguments
    rw [List.append_assoc, List.cons_append]
    refine (ihcallee S hfirm).across (fun ext hext => ?_) (leads_bracket harguments .round S)
    rw [Phrase.Leaves.eq_nil hext]
    rfl
  | subscript _ _ ihtarget ihindex =>
    intro S hfirm
    rw [List.append_assoc, List.cons_append]
    have hindex (S : List Frame) (hS : Firm 0 S) := ihindex S (hS.mono (Nat.zero_le _))
    refine (ihtarget S hfirm).across (fun ext hext => ?_) (leads_bracket hindex .square S)
    rw [Phrase.Leaves.eq_nil hext]
    rfl
  | @member n ts e text _ ih =>
    intro S hfirm
    rw [← Nat.max_zero n]
    refine (ih S hfirm).across (fun ext hext => ?_) (Spot.Leads.leaf (t := .name text) rfl S)
    rw [Phrase.Leaves.eq_nil hext]
    exact Spot.after_dot _
  | constant c => exact fun S _ => Spot.Leads.leaf c.isLeaf_token S
  | name text => exact fun S _ => Spot.Leads.leaf rfl S
  | empty => exact fun S _ => Spot.Leads.empty S
  | group hinner ih =>
    intro S _
    exact (ih _ (firm_bracket _ S)).parenthesised (hinner.le_deepest _)
  | tuple first _ ihfirst ihothers =>
    intro S _
    obtain ⟨due, hothers⟩ := ihothers
    have hfirst := ihfirst _ (firm_bracket _ S)
    have hinner := hfirst.comma (firm_bracket 0 S) (hothers _ (firm_bracket 0 S))
    refine hinner.parenthesised (Nat.le_trans (first.le_deepest _) ?_)
    rw [Spot.deepest_append]
    exact Nat.le_max_left _ _
  | list _ ih =>
    intro S _
    obtain ⟨due, hinner⟩ := ih
    rw [List.cons_append]
    exact (leads_bracket hinner .square S).front rfl (by decide) (Nat.le_succ _)
  | noItem => exact ⟨true, fun S _ => .noToken S⟩
  | lastItem _ ih => exact ⟨false, fun S hfirm => ih S (hfirm.mono (Nat.zero_le _))⟩
  | item _ _ ihfirst ihothers =>
    obtain ⟨due, hothers⟩ := ihothers
    refine ⟨due, fun S hfirm => ?_⟩
    exact (ihfirst S (hfirm.mono (Nat.zero_le _))).comma hfirm (hothers S hfirm)

/-- How deep a text goes is a matter of its tokens: every derivation of them goes as deep. -/
theorem Nests.eq_deepest {e : Expr} (h : Nests n .sentence ts e) :
    n = (⟨true, []⟩ : Spot).deepest ts := by
  obtain ⟨due, ext, _, _, hdeep⟩ := h.leads
  simpa using hdeep.symm

theorem Nests.unique {e f : Expr} (h : Nests m .sentence ts e) (h' : Nests n .sentence ts f) :
    m = n :=
  h.eq_deepest.trans h'.eq_deepest.symm

end Abacus
