import Abacus.Proofs.Grammar.Beginning
import Abacus.Proofs.Grammar.Exactness
import Abacus.Proofs.Token.Layout

namespace Abacus

open Lexeme (next unexpected tooDeep tokens)

/-- The same token comes next, or none does in both. -/
def Alike (ts us : List Lexeme) : Prop := (tokens ts).head? = (tokens us).head?

namespace Alike

variable {lexeme : Lexeme} {ts us vs ws : List Lexeme}

theorem refl (ts : List Lexeme) : Alike ts ts := rfl

theorem cons_iff : Alike ts (lexeme :: us) ↔ ∃ other vs, ts = other :: vs ∧ other.token = lexeme.token := by
  cases ts with
  | nil => simp [Alike]
  | cons other vs => simp [Alike]

theorem eq_nil (h : Alike ts []) : ts = [] := by
  cases ts with
  | nil => rfl
  | cons other vs => cases h

theorem next_eq (h : Alike ts us) : next ts = next us := by
  cases us with
  | nil => rw [h.eq_nil]
  | cons lexeme us =>
    obtain ⟨other, vs, rfl, htoken⟩ := cons_iff.1 h
    exact htoken

/-- What is alike behind the same tokens is alike with them. -/
theorem append (htokens : tokens vs = tokens ws) (h : Alike ts us) : Alike (vs ++ ts) (ws ++ us) := by
  unfold Alike
  rw [Lexeme.tokens_append, Lexeme.tokens_append, htokens, List.head?_append, List.head?_append, h]

end Alike

namespace Expr

variable {α β : Type} {ts : List Lexeme} {stalls : List Token → Prop}

/-- The ways in which a reader is done, each for whatever is left then. -/
inductive Settles (stall : Prop) : (List Lexeme → Except Fault (α × List Lexeme)) → Prop where
  | ok (value : α) : Settles stall fun left => .ok (value, left)
  | unexpected (allowed : stall) : Settles stall fun left => .error (unexpected left)
  | tooDeep : Settles stall fun left => .error (tooDeep left)

/-- The reader is done behind some of the lexemes, and is so in the same way if behind the same tokens
something else is left that starts alike. Where it stops at an unexpected token, those before it are as
said. -/
def Heeds (f : List Lexeme → Except Fault (α × List Lexeme)) (ts : List Lexeme)
    (stalls : List Token → Prop) : Prop :=
  ∃ used left result, ts = used ++ left ∧ Settles (stalls (tokens used)) result ∧
    ∀ others rest, tokens others = tokens used → Alike rest left → f (others ++ rest) = result rest

namespace Heeds

variable {f g : List Lexeme → Except Fault (α × List Lexeme)}

/-- A reader that is done at once. -/
theorem of_settles {result : List Lexeme → Except Fault (α × List Lexeme)}
    (hsettles : Settles (stalls []) result) (h : ∀ us, Alike us ts → f us = result us) :
    Heeds f ts stalls := by
  refine ⟨[], ts, result, rfl, hsettles, ?_⟩
  intro others rest hothers hrest
  obtain rfl := List.map_eq_nil_iff.1 hothers
  exact h rest hrest

theorem mono {stalls' : List Token → Prop} (h : Heeds f ts stalls)
    (hmono : ∀ us, stalls us → stalls' us) : Heeds f ts stalls' := by
  obtain ⟨used, left, result, hts, hsettles, hf⟩ := h
  refine ⟨used, left, result, hts, ?_, hf⟩
  cases hsettles with
  | ok value => exact .ok value
  | unexpected h => exact .unexpected (hmono _ h)
  | tooDeep => exact .tooDeep

theorem congr (h : ∀ us, Alike us ts → f us = g us) (hg : Heeds g ts stalls) : Heeds f ts stalls := by
  obtain ⟨used, left, result, rfl, hsettles, hg⟩ := hg
  refine ⟨used, left, result, rfl, hsettles, ?_⟩
  intro others rest hothers hrest
  rw [h _ (hrest.append hothers)]
  exact hg others rest hothers hrest

/-- A lexeme that is taken before. -/
theorem cons {lexeme : Lexeme}
    (h : ∀ other us, other.token = lexeme.token → f (other :: us) = g us)
    (hg : Heeds g ts fun us => stalls (lexeme.token :: us)) : Heeds f (lexeme :: ts) stalls := by
  obtain ⟨used, left, result, rfl, hsettles, hg⟩ := hg
  refine ⟨lexeme :: used, left, result, rfl, hsettles, ?_⟩
  intro others rest hothers hrest
  obtain ⟨other, us, rfl, htoken, hus⟩ := List.map_eq_cons_iff.1 hothers
  rw [List.cons_append, h other _ htoken]
  exact hg us rest hus hrest

theorem meets (h : Heeds f ts stalls) : Meets ts (f ts) fun _ _ _ => True := by
  obtain ⟨used, left, result, rfl, hsettles, hf⟩ := h
  rw [hf used left rfl (.refl left)]
  cases hsettles with
  | ok value => exact ⟨used, rfl, trivial⟩
  | unexpected _ => exact refused_unexpected.before (List.suffix_append used left)
  | tooDeep => exact refused_tooDeep.before (List.suffix_append used left)

theorem bind {P : α → List Token → List Lexeme → Prop}
    {k : α × List Lexeme → Except Fault (β × List Lexeme)}
    (hf : Heeds f ts stalls) (hmeets : Meets ts (f ts) P)
    (hk : ∀ value used rest, ts = used ++ rest → P value (tokens used) rest →
      Heeds (fun rest => k (value, rest)) rest fun us => stalls (tokens used ++ us)) :
    Heeds (fun us => f us >>= k) ts stalls := by
  obtain ⟨used, left, result, rfl, hsettles, hf⟩ := hf
  cases hsettles with
  | ok value =>
    rw [hf used left rfl (.refl left)] at hmeets
    obtain ⟨before, hbefore, hpost⟩ := hmeets
    obtain rfl := List.append_cancel_right hbefore
    obtain ⟨more, rest, result, rfl, hsettles, hk⟩ := hk value used left rfl hpost
    change Settles (stalls (tokens used ++ tokens more)) result at hsettles
    rw [← Lexeme.tokens_append] at hsettles
    refine ⟨used ++ more, rest, result, (List.append_assoc ..).symm, hsettles, ?_⟩
    intro others other hothers halike
    rw [Lexeme.tokens_append] at hothers
    obtain ⟨before, behind, rfl, hbefore, hbehind⟩ := List.map_eq_append_iff.1 hothers
    dsimp only
    rw [List.append_assoc, hf before _ hbefore (halike.append hbehind)]
    exact hk behind other hbehind halike
  | unexpected h =>
    refine ⟨used, left, _, rfl, .unexpected h, ?_⟩
    intro others rest hothers halike
    dsimp only
    rw [hf others rest hothers halike]
    rfl
  | tooDeep =>
    refine ⟨used, left, _, rfl, .tooDeep, ?_⟩
    intro others rest hothers halike
    dsimp only
    rw [hf others rest hothers halike]
    rfl

theorem map {m : α → β} (h : Heeds f ts stalls) :
    Heeds (fun us => f us >>= fun found => .ok (m found.1, found.2)) ts stalls := by
  apply h.bind h.meets
  intro value used rest _ _
  exact of_settles (.ok (m value)) fun _ _ => rfl

theorem unexpected (h : ∀ us, Alike us ts → f us = .error (unexpected us)) (hstall : stalls []) :
    Heeds f ts stalls := of_settles (.unexpected hstall) h

theorem keep (e : Expr) : Heeds (Expr.keep e) ts stalls := by
  by_cases hheight : e.height ≤ maxDepth
  · exact of_settles (.ok e) fun _ _ => if_pos hheight
  · exact of_settles .tooDeep fun _ _ => if_neg hheight

theorem keep_bind {e : Expr} {k : Expr × List Lexeme → Except Fault (β × List Lexeme)}
    (h : e.height ≤ maxDepth → Heeds (fun us => k (e, us)) ts stalls) :
    Heeds (fun us => Expr.keep e us >>= k) ts stalls := by
  by_cases hheight : e.height ≤ maxDepth
  · apply congr _ (h hheight)
    intro us _
    rw [Expr.keep, if_pos hheight]
    rfl
  · apply of_settles .tooDeep
    intro us _
    rw [Expr.keep, if_neg hheight]
    rfl

theorem map_keep {m : α → Expr} (h : Heeds f ts stalls) :
    Heeds (fun us => f us >>= fun found => Expr.keep (m found.1) found.2) ts stalls := by
  apply h.bind h.meets
  intro value used rest _ _
  exact keep (m value)

theorem descend {below : Option Descent} {k : Descent → List Lexeme → Except Fault (α × List Lexeme)}
    (h : ∀ inner, below = some inner → Heeds (k inner) ts stalls) :
    Heeds (fun us => Expr.descend below us >>= fun inner => k inner us) ts stalls := by
  cases below with
  | none => exact of_settles .tooDeep fun _ _ => rfl
  | some inner => exact congr (fun _ _ => rfl) (h inner rfl)

/-- A choice by the token that comes next, which is taken if it is as wanted. -/
theorem ite {p : Token → Prop} [DecidablePred p] (heof : ¬p .eof)
    (hthen : ∀ lexeme rest, ts = lexeme :: rest → p lexeme.token →
      Heeds f rest fun us => stalls (lexeme.token :: us))
    (helse : ¬p (next ts) → Heeds g ts stalls) :
    Heeds (fun us => if p (next us) then f us.tail else g us) ts stalls := by
  by_cases hp : p (next ts)
  · cases ts with
    | nil => exact absurd hp heof
    | cons lexeme rest =>
      apply cons (g := f) _ (hthen lexeme rest rfl hp)
      intro other us htoken
      rw [next_cons, htoken]
      exact if_pos hp
  · apply congr (g := g) _ (helse hp)
    intro us halike
    rw [halike.next_eq]
    exact if_neg hp

theorem closed {bracket : Bracket} (value : α) (hstall : stalls []) :
    Heeds (Expr.closed bracket value) ts stalls := by
  cases ts with
  | nil =>
    apply unexpected _ hstall
    intro us halike
    rw [halike.eq_nil]
    rfl
  | cons lexeme rest =>
    by_cases hclosing : lexeme.token = .closing bracket
    · apply cons (g := fun us => .ok (value, us)) _ (of_settles (.ok value) fun _ _ => rfl)
      intro other us htoken
      exact if_pos (htoken.trans hclosing)
    · apply unexpected _ hstall
      intro us halike
      obtain ⟨other, us, rfl, htoken⟩ := Alike.cons_iff.1 halike
      exact if_neg (by rwa [htoken])

end Heeds

/-- Readers that look no further than at the next token. -/
structure Descent.Heedful (inner : Descent) : Prop where
  expression : ∀ p ts, p.precedence ≤ Precedence.operand →
    Heeds (fun us => outcome (inner.expression p.precedence us)) ts (Begins (.phrase p))
  operand : ∀ ts, Heeds (fun us => outcome (inner.operand us)) ts (Begins (.phrase .signed))

/-- The readers one descent below look no further, if there are any. -/
def HeedfulBelow (below : Option Descent) : Prop := ∀ inner, below = some inner → inner.Heedful

theorem items_heeds {inner : Descent} {d : Nat} (hsound : inner.Sound d) (hinner : inner.Heedful)
    (bracket : Bracket) (ts : List Lexeme) :
    Heeds (fun us => outcome (items inner bracket us)) ts (Begins .items) := by
  induction ts using Lexeme.shorter with
  | step ts ih =>
    cases ts with
    | nil =>
      apply Heeds.unexpected _ (Begins.lastItem (.nil _))
      intro us halike
      rw [halike.eq_nil, items]
      rfl
    | cons lexeme rest =>
      by_cases hclosing : lexeme.token = .closing bracket
      · apply Heeds.cons (g := fun us => .ok ([], us)) _ (.of_settles (.ok []) fun _ _ => rfl)
        intro other us htoken
        rw [outcome_items, if_pos (htoken.trans hclosing)]
      apply Heeds.congr (g := fun us =>
        outcome (inner.expression Precedence.or us) >>= fun first =>
          if next first.2 = .symbol .comma then
            outcome (items inner bracket first.2.tail) >>= fun others => .ok (first.1 :: others.1, others.2)
          else Expr.closed bracket [first.1] first.2)
      · intro us halike
        obtain ⟨other, us, rfl, htoken⟩ := Alike.cons_iff.1 halike
        rw [outcome_items, if_neg (by rwa [htoken])]
      apply Heeds.bind ((hinner.expression .disjunction _ (by decide)).mono fun us => Begins.lastItem)
        (hsound.expression .disjunction _ (by decide))
      intro first used left hused hfirst
      apply Heeds.ite (p := (· = .symbol .comma))
        (f := fun us => outcome (items inner bracket us) >>= fun others => .ok (first :: others.1, others.2))
        (by simp)
      · rintro comma after rfl hcomma
        have hshort : after.length < (lexeme :: rest).length := by
          rw [hused, List.length_append, List.length_cons]
          omega
        apply Heeds.map (m := fun others => first :: others)
        apply (ih after hshort).mono
        intro us h
        rw [hcomma]
        exact h.item hfirst.1
      · intro _
        dsimp only
        apply Heeds.closed
        rw [List.append_nil]
        exact hfirst.1.begins.lastItem

section Readers

variable {below : Option Descent} {d : Nat} (hsound : SoundBelow below d) (hbelow : HeedfulBelow below)
include hsound hbelow

theorem group_heeds (ts : List Lexeme) :
    Heeds (fun us => outcome (group below us)) ts fun us =>
      Begins (.phrase .atom) (.opening .round :: us) := by
  apply Heeds.congr (fun us _ => outcome_group below us)
  apply Heeds.ite (p := (· = .closing .round)) (f := fun us => .ok (Expr.tuple [], us)) (by simp)
  · intro lexeme rest _ _
    exact .of_settles (.ok (Expr.tuple [])) fun _ _ => rfl
  intro _
  apply Heeds.descend
  intro inner hinner
  obtain ⟨n, rfl, hfirst⟩ := hsound inner hinner
  apply (((hbelow inner hinner).expression .disjunction ts (by decide)).mono fun us => Begins.group).bind
    (hfirst.expression .disjunction ts (by decide))
  intro first used left _ hfirst
  apply Heeds.ite (p := (· = .symbol .comma))
    (f := fun us => Expr.descend below us >>= fun inner =>
      outcome (items inner .round us) >>= fun others => keep (tuple (first :: others.1)) others.2)
    (by simp)
  · rintro comma after rfl hcomma
    apply Heeds.descend
    intro inner hinner
    obtain ⟨m, _, hothers⟩ := hsound inner hinner
    apply Heeds.map_keep (m := fun others => tuple (first :: others))
    apply (items_heeds hothers (hbelow inner hinner) .round after).mono
    intro us h
    rw [hcomma]
    exact h.tuple hfirst.1
  · intro _
    apply Heeds.closed
    rw [List.append_nil]
    exact hfirst.1.begins.group

theorem atom_heeds (ts : List Lexeme) :
    Heeds (fun us => outcome (atom below us)) ts (Begins (.phrase .atom)) := by
  cases ts with
  | nil =>
    apply Heeds.unexpected _ (.nil _)
    intro us halike
    rw [halike.eq_nil]
    rfl
  | cons lexeme rest =>
    obtain ⟨token, offset⟩ := lexeme
    cases hconstant : Constant.ofToken? token with
    | some c =>
      apply Heeds.cons (g := fun us => .ok (.constant c, us)) _ (.of_settles (.ok _) fun _ _ => rfl)
      intro other us htoken
      rw [outcome_atom, htoken, hconstant]
    | none =>
      cases token with
      | name text =>
        apply Heeds.cons (g := fun us => .ok (.name text, us)) _ (.of_settles (.ok _) fun _ _ => rfl)
        intro other us htoken
        rw [outcome_atom, htoken]
        rfl
      | opening bracket =>
        cases bracket with
        | round =>
          apply Heeds.cons _ (group_heeds hsound hbelow rest)
          intro other us htoken
          rw [outcome_atom, htoken]
          rfl
        | square =>
          apply Heeds.cons (g := fun us => Expr.descend below us >>= fun inner =>
            outcome (items inner .square us) >>= fun found => keep (list found.1) found.2)
          · intro other us htoken
            rw [outcome_atom, htoken]
            rfl
          apply Heeds.descend
          intro inner hinner
          obtain ⟨n, _, hitems⟩ := hsound inner hinner
          apply Heeds.map_keep (m := list)
          exact (items_heeds hitems (hbelow inner hinner) .square rest).mono fun us => Begins.list
      | _ =>
        apply Heeds.unexpected _ (.nil _)
        intro us halike
        obtain ⟨other, us, rfl, htoken⟩ := Alike.cons_iff.1 halike
        rw [outcome_atom, htoken, hconstant]

/-- Whatever a trailer may be applied to, trailers are read looking no further. -/
def TrailersHeed (below : Option Descent) (d : Nat) (ts : List Lexeme) : Prop :=
  ∀ (target : Expr) (us : List Token), Derives d (.phrase .primary) us target → target.height ≤ maxDepth →
    Heeds (fun us => outcome (trailers below target us)) ts fun vs => Begins (.phrase .primary) (us ++ vs)

section Trailer

variable {target : Expr} {us : List Token} (htarget : Derives d (.phrase .primary) us target) {offset : Nat}
  {rest : List Lexeme} (ih : ∀ left : List Lexeme, left.length ≤ rest.length → TrailersHeed below d left)
include htarget ih

theorem call_heeds :
    Heeds (fun us => outcome (trailers below target us)) (⟨.opening .round, offset⟩ :: rest) fun vs =>
      Begins (.phrase .primary) (us ++ vs) := by
  apply Heeds.cons (g := fun us =>
    Expr.descend below us >>= fun inner =>
    outcome (items inner .round us) >>= fun arguments =>
    keep (call target arguments.1) arguments.2 >>= fun applied =>
    outcome (trailers below applied.1 applied.2))
  · intro other us htoken
    rw [outcome_trailers, next_cons, htoken]
    rfl
  apply Heeds.descend
  intro inner hinner
  obtain ⟨n, rfl, hitems⟩ := hsound inner hinner
  apply ((items_heeds hitems (hbelow inner hinner) .round rest).mono fun vs h => h.call htarget).bind
    (items_meets hitems .round rest)
  intro arguments used left hused harguments
  obtain ⟨vs, hvs, hderives⟩ := harguments
  have hshort : left.length ≤ rest.length := by
    rw [hused, List.length_append]
    exact Nat.le_add_left _ _
  dsimp only
  apply Heeds.keep_bind
  intro hheight
  apply (ih left hshort _ _ (.call htarget hderives) hheight).mono
  intro more h
  simpa [hvs] using h

theorem subscript_heeds :
    Heeds (fun us => outcome (trailers below target us)) (⟨.opening .square, offset⟩ :: rest) fun vs =>
      Begins (.phrase .primary) (us ++ vs) := by
  apply Heeds.cons (g := fun us =>
    Expr.descend below us >>= fun inner =>
    outcome (inner.expression Precedence.or us) >>= fun index =>
    closed .square index.1 index.2 >>= fun index =>
    keep (subscript target index.1) index.2 >>= fun applied =>
    outcome (trailers below applied.1 applied.2))
  · intro other us htoken
    rw [outcome_trailers, next_cons, htoken]
    rfl
  apply Heeds.descend
  intro inner hinner
  obtain ⟨n, rfl, hindex⟩ := hsound inner hinner
  apply (((hbelow inner hinner).expression .disjunction rest (by decide)).mono
    fun vs h => h.subscript htarget).bind (hindex.expression .disjunction rest (by decide))
  intro index used left hused hindex
  have hstall : Begins (.phrase .primary) (us ++ .opening .square :: (tokens used ++ [])) := by
    rw [List.append_nil]
    exact hindex.1.begins.subscript htarget
  apply (Heeds.closed index hstall).bind (P := fun other vs _ => other = index ∧ vs = [.closing .square])
    (.closed fun _ => ⟨rfl, rfl⟩)
  rintro other closing after hclosing ⟨rfl, hbracket⟩
  have hshort : after.length ≤ rest.length := by
    rw [hused, hclosing, List.length_append, List.length_append]
    omega
  dsimp only
  apply Heeds.keep_bind
  intro hheight
  apply (ih after hshort _ _ (.subscript htarget hindex.1) hheight).mono
  intro more h
  simpa [hbracket] using h

omit hsound hbelow in
theorem member_heeds :
    Heeds (fun us => outcome (trailers below target us)) (⟨.symbol .dot, offset⟩ :: rest) fun vs =>
      Begins (.phrase .primary) (us ++ vs) := by
  apply Heeds.cons (fun other us htoken => outcome_trailers_dot below target htoken us)
  cases hlabel : next rest with
  | name text =>
    obtain ⟨place, after, rfl⟩ := eq_cons_of_next hlabel (by simp)
    apply Heeds.cons (g := fun us =>
      keep (member target text) us >>= fun applied => outcome (trailers below applied.1 applied.2))
    · intro other us htoken
      rw [next_cons, htoken]
      rfl
    apply Heeds.keep_bind
    intro hheight
    apply (ih after (Nat.le_succ _) _ _ (.member text htarget) hheight).mono
    intro more h
    simpa using h
  | _ =>
    apply Heeds.unexpected _ (Begins.member htarget)
    intro us halike
    rw [halike.next_eq, hlabel]

end Trailer

theorem trailers_heeds (ts : List Lexeme) : TrailersHeed below d ts := by
  induction ts using Lexeme.shorter with
  | step ts ih =>
    intro target us htarget hlow
    by_cases hround : next ts = .opening .round
    · obtain ⟨offset, rest, rfl⟩ := eq_cons_of_next hround (by simp)
      exact call_heeds hsound hbelow htarget fun left hleft => ih left (Nat.lt_succ_of_le hleft)
    by_cases hsquare : next ts = .opening .square
    · obtain ⟨offset, rest, rfl⟩ := eq_cons_of_next hsquare (by simp)
      exact subscript_heeds hsound hbelow htarget fun left hleft => ih left (Nat.lt_succ_of_le hleft)
    by_cases hdot : next ts = .symbol .dot
    · obtain ⟨offset, rest, rfl⟩ := eq_cons_of_next hdot (by simp)
      exact member_heeds htarget fun left hleft => ih left (Nat.lt_succ_of_le hleft)
    · apply Heeds.of_settles (.ok target)
      intro us halike
      rw [← halike.next_eq] at hround hsquare hdot
      exact trailers_of_detached hround hsquare hdot

theorem primary_heeds (ts : List Lexeme) :
    Heeds (fun us => outcome (primary below us)) ts (Begins (.phrase .primary)) := by
  apply Heeds.congr (fun us _ => outcome_primary below us)
  apply ((atom_heeds hsound hbelow ts).mono fun us h => h.loosen (by decide)).bind (atom_meets hsound ts)
  intro target used left _ htarget
  exact trailers_heeds hsound hbelow left target _ (htarget.1.loosen (by decide)) htarget.2

theorem power_heeds (ts : List Lexeme) :
    Heeds (fun us => outcome (power below us)) ts (Begins (.phrase .power)) := by
  apply Heeds.congr (fun us _ => outcome_power below us)
  apply ((primary_heeds hsound hbelow ts).mono fun us h => h.loosen (by decide)).bind
    (primary_meets hsound ts)
  intro base used left _ hbase
  apply Heeds.ite (p := (· = .symbol .doubleStar))
    (f := fun us => Expr.descend below us >>= fun inner =>
      outcome (inner.operand us) >>= fun exponent => keep (binary .pow base exponent.1) exponent.2)
    (by simp)
  · rintro lexeme after rfl hstar
    apply Heeds.descend
    intro inner hinner
    apply Heeds.map_keep (m := binary .pow base)
    apply ((hbelow inner hinner).operand after).mono
    intro us h
    rw [hstar]
    exact h.power hbase.1
  · intro _
    exact .of_settles (.ok base) fun _ _ => rfl

/-- Where a `not` may stand, a negation may be under way; else a sign or a power is. -/
theorem unaryOrPower_heeds (least : Nat) (ts : List Lexeme) :
    Heeds (fun us => outcome (unaryOrPower below least us)) ts fun us =>
      Begins (.phrase .signed) us ∨ least ≤ Precedence.not ∧ Begins (.phrase .negation) us := by
  cases ts with
  | nil =>
    apply Heeds.unexpected _ (.inl (.nil _))
    intro us halike
    rw [halike.eq_nil]
    rfl
  | cons lexeme rest =>
    have hpower : Heeds (fun us => outcome (power below us)) (lexeme :: rest) fun us =>
        Begins (.phrase .signed) us ∨ least ≤ Precedence.not ∧ Begins (.phrase .negation) us := by
      apply (power_heeds hsound hbelow (lexeme :: rest)).mono
      exact fun us h => .inl (h.loosen (by decide))
    cases hsign : UnaryOp.ofToken? lexeme.token with
    | none =>
      apply Heeds.congr _ hpower
      intro us halike
      obtain ⟨other, us, rfl, htoken⟩ := Alike.cons_iff.1 halike
      rw [outcome_unaryOrPower, htoken, hsign]
    | some op =>
      by_cases hnot : op = .not
      · subst hnot
        by_cases hleast : least ≤ Precedence.not
        · apply Heeds.cons (g := fun us => Expr.descend below us >>= fun inner =>
            outcome (inner.expression Precedence.not us) >>= fun operand =>
            keep (unary .not operand.1) operand.2)
          · intro other us htoken
            rw [outcome_unaryOrPower, htoken, hsign]
            exact if_pos hleast
          apply Heeds.descend
          intro inner hinner
          apply Heeds.map_keep (m := unary .not)
          apply ((hbelow inner hinner).expression .negation rest (by decide)).mono
          intro us h
          rw [UnaryOp.eq_token hsign]
          exact .inr ⟨hleast, h.not⟩
        · apply Heeds.congr _ hpower
          intro us halike
          obtain ⟨other, us, rfl, htoken⟩ := Alike.cons_iff.1 halike
          rw [outcome_unaryOrPower, htoken, hsign]
          exact if_neg hleast
      · apply Heeds.cons (g := fun us => Expr.descend below us >>= fun inner =>
          outcome (inner.operand us) >>= fun operand => keep (unary op operand.1) operand.2)
        · intro other us htoken
          rw [outcome_unaryOrPower, htoken, hsign]
          cases op with
          | not => exact absurd rfl hnot
          | pos | neg | invert => rfl
        apply Heeds.descend
        intro inner hinner
        apply Heeds.map_keep (m := unary op)
        apply ((hbelow inner hinner).operand rest).mono
        intro us h
        rw [UnaryOp.eq_token hsign]
        exact .inl (h.signed hnot)

end Readers

theorem connectedTo_heeds {inner : Descent} {d : Nat} (hsound : inner.Sound d) (hinner : inner.Heedful)
    (op : Connective) (ts : List Lexeme) :
    Heeds (fun us => outcome (connectedTo inner op us)) ts (Begins (.operands op)) := by
  induction ts using Lexeme.shorter with
  | step ts ih =>
    apply Heeds.congr (fun us _ => outcome_connectedTo inner op us)
    rw [← op.precedence_operand]
    have hoperand : op.operand.precedence ≤ Precedence.operand := by cases op <;> decide
    apply ((hinner.expression op.operand ts hoperand).mono fun us => Begins.lastOperand).bind
      (hsound.expression op.operand ts hoperand)
    intro first used left hused hfirst
    apply Heeds.ite (p := fun token => Link.ofToken? token = some (.connective op))
      (f := fun us => outcome (connectedTo inner op us) >>= fun others => .ok (first :: others.1, others.2))
      (by simp [Link.ofToken?])
    · rintro lexeme after rfl hlink
      have hshort : after.length < ts.length := by
        rw [hused, List.length_append, List.length_cons]
        omega
      apply Heeds.map (m := fun others => first :: others)
      apply (ih after hshort).mono
      intro us h
      rw [Link.eq_token_of_connective hlink]
      exact h.operand hfirst.1
    · intro _
      exact .of_settles (.ok [first]) fun _ _ => rfl

theorem comparedTo_heeds {inner : Descent} {d : Nat} (hsound : inner.Sound d) (hinner : inner.Heedful)
    (op : Comparison) (ts : List Lexeme) :
    Heeds (fun us => outcome (comparedTo inner op us)) ts fun us =>
      Begins .comparisons (.symbol op.symbol :: us) := by
  induction ts using Lexeme.shorter generalizing op with
  | step ts ih =>
    apply Heeds.congr (fun us _ => outcome_comparedTo inner op us)
    apply ((hinner.expression (.binary .bitOr) ts (by decide)).mono fun us => Begins.lastComparison op).bind
      (hsound.expression (.binary .bitOr) ts (by decide))
    intro first used left hused hfirst
    by_cases hend : ∃ following, Link.ofToken? (next left) = some (.comparison following)
    · obtain ⟨following, hlink⟩ := hend
      obtain ⟨offset, after, rfl⟩ := eq_cons_of_next (Link.eq_symbol_of_comparison hlink) (by simp)
      have hshort : after.length < ts.length := by
        rw [hused, List.length_append, List.length_cons]
        omega
      apply Heeds.cons (g := fun us =>
        outcome (comparedTo inner following us) >>= fun others => .ok ((op, first) :: others.1, others.2))
      · intro other us htoken
        dsimp only
        rw [next_cons, htoken, Link.ofToken?_comparison]
        rfl
      apply Heeds.map (m := fun others => (op, first) :: others)
      apply (ih after hshort following).mono
      intro us h
      exact h.comparison op hfirst.1
    · apply Heeds.of_settles (.ok [(op, first)])
      intro us halike
      dsimp only
      rw [halike.next_eq]
      split
      · rename_i following hlink
        exact absurd ⟨following, hlink⟩ hend
      · rfl

/-- A link and what follows it. -/
def extendAt (below : Option Descent) (left : Expr) (link : Link) :
    List Lexeme → Except Fault (Expr × List Lexeme)
  | [] => .error (unexpected [])
  | lexeme :: rest => outcome (extend below left link lexeme rest)

section Readers

variable {below : Option Descent} {d : Nat} (hsound : SoundBelow below d) (hbelow : HeedfulBelow below)
include hsound hbelow

theorem extend_heeds {left : Expr} {us : List Token} {q : Phrase} (hleft : Derives d (.phrase q) us left)
    {link : Link} (hleast : link.least ≤ q.precedence) {lexeme : Lexeme}
    (hlink : Link.ofToken? lexeme.token = some link) (rest : List Lexeme) :
    Heeds (extendAt below left link) (lexeme :: rest) fun vs =>
      ∃ p : Phrase, p.precedence = link.precedence ∧ Begins (.phrase p) (us ++ vs) := by
  cases link with
  | arithmetic op =>
    obtain ⟨hpow, htoken⟩ := Link.eq_symbol_of_arithmetic hlink
    obtain ⟨level, hmem⟩ := BinaryOp.exists_level hpow
    have hprecedence := Level.precedence_of_mem hmem
    apply Heeds.cons (fun other us _ => outcome_extend below left (.arithmetic op) other us)
    apply Heeds.descend
    intro inner hinner
    apply Heeds.map_keep (m := binary op left)
    rw [hprecedence, ← level.precedence_operand]
    apply ((hbelow inner hinner).expression level.operand rest (by cases level <;> decide)).mono
    intro vs h
    rw [htoken]
    exact ⟨.binary level, hprecedence.symm,
      h.binary hmem (hleft.loosen (Nat.le_trans (Nat.le_of_eq hprecedence.symm) hleast))⟩
  | connective op =>
    apply Heeds.congr (g := fun us => Expr.descend below us >>= fun inner =>
      outcome (connectedTo inner op us.tail) >>= fun others =>
      keep (connected op (left :: others.1)) others.2)
    · intro us halike
      obtain ⟨other, us, rfl, _⟩ := Alike.cons_iff.1 halike
      exact outcome_extend below left (.connective op) other us
    apply Heeds.descend
    intro inner hinner
    obtain ⟨n, rfl, hothers⟩ := hsound inner hinner
    apply Heeds.cons (g := fun us => outcome (connectedTo inner op us) >>= fun others =>
      keep (connected op (left :: others.1)) others.2) (fun _ _ _ => rfl)
    apply Heeds.map_keep (m := fun others => connected op (left :: others))
    apply (connectedTo_heeds hothers (hbelow inner hinner) op rest).mono
    intro vs h
    have hfirst : Derives (n + 1) (.phrase op.operand) us left :=
      hleft.loosen (by rw [op.precedence_operand]; exact hleast)
    rw [Link.eq_token_of_connective hlink]
    exact ⟨op.chain, op.precedence_chain, h.connected hfirst⟩
  | comparison op =>
    apply Heeds.congr (g := fun us => Expr.descend below us >>= fun inner =>
      outcome (comparedTo inner op us.tail) >>= fun others => keep (compared left others.1) others.2)
    · intro us halike
      obtain ⟨other, us, rfl, _⟩ := Alike.cons_iff.1 halike
      exact outcome_extend below left (.comparison op) other us
    apply Heeds.descend
    intro inner hinner
    obtain ⟨n, rfl, hothers⟩ := hsound inner hinner
    apply Heeds.cons (g := fun us => outcome (comparedTo inner op us) >>= fun others =>
      keep (compared left others.1) others.2) (fun _ _ _ => rfl)
    apply Heeds.map_keep (m := compared left)
    apply (comparedTo_heeds hothers (hbelow inner hinner) op rest).mono
    intro vs h
    have hfirst : Derives (n + 1) (.phrase (.binary .bitOr)) us left := hleft.loosen hleast
    rw [Link.eq_symbol_of_comparison hlink]
    exact ⟨.comparison, rfl, h.compared hfirst⟩

theorem climb_heeds {p q : Phrase} {left : Expr} {us : List Token}
    (hleft : Derives d (.phrase q) us left) (hlow : left.height ≤ maxDepth)
    (hle : p.precedence ≤ q.precedence) {ts : List Lexeme} (hadmits : Admits q ts) :
    Heeds (fun us => outcome (climb below p.precedence left us)) ts fun vs =>
      Begins (.phrase p) (us ++ vs) := by
  induction ts using Lexeme.shorter generalizing q left us with
  | step ts ih =>
    by_cases hstops : Stops p.precedence ts
    · apply Heeds.of_settles (.ok left)
      intro us halike
      apply climb_of_stops
      intro link hlink
      rw [halike.next_eq] at hlink
      exact hstops link hlink
    · obtain ⟨link, hlink, htight⟩ : ∃ link, Link.ofToken? (next ts) = some link ∧
          p.precedence ≤ link.precedence := by simpa [Stops] using hstops
      cases ts with
      | nil => cases hlink
      | cons lexeme rest =>
        apply Heeds.congr (g := fun us => extendAt below left link us >>= fun joined =>
          outcome (climb below p.precedence joined.1 joined.2))
        · intro us halike
          obtain ⟨other, us, rfl, htoken⟩ := Alike.cons_iff.1 halike
          exact climb_of_link (htoken ▸ hlink) htight us
        apply ((extend_heeds hsound hbelow hleft (hadmits link hlink) hlink rest).mono _).bind
          (extend_meets hsound hleft (hadmits link hlink) hlink rest)
        · rintro joined used after hused ⟨r, hr, hjoined, hheight, hadmits, hne⟩
          have hshort : after.length < (lexeme :: rest).length := by
            have hpos : 0 < used.length := by
              cases used with
              | nil => exact absurd rfl hne
              | cons => exact Nat.zero_lt_succ _
            rw [hused, List.length_append]
            omega
          apply (ih after hshort hjoined hheight (by omega) hadmits).mono
          intro more h
          rwa [List.append_assoc] at h
        · intro vs hvs
          obtain ⟨r, hr, hbegins⟩ := hvs
          exact hbegins.loosen (by omega)

theorem expression_heeds {p : Phrase} (hp : p.precedence ≤ Precedence.operand) (ts : List Lexeme) :
    Heeds (fun us => outcome (expression below p.precedence us)) ts (Begins (.phrase p)) := by
  apply Heeds.congr (fun us _ => outcome_expression below p.precedence us)
  apply ((unaryOrPower_heeds hsound hbelow p.precedence ts).mono _).bind
    (unaryOrPower_meets hsound p.precedence ts)
  · intro first used left _ hfirst
    rcases hfirst with htight | ⟨hle, hnegation⟩
    · exact climb_heeds hsound hbelow htight.1 htight.2 hp (admits_signed left)
    · exact climb_heeds hsound hbelow hnegation.1 hnegation.2.1 hle hnegation.2.2.admits
  · intro us h
    rcases h with hsigned | ⟨hle, hnegation⟩
    · exact hsigned.loosen hp
    · exact hnegation.loosen hle

end Readers

theorem heedful_of_below {depth : Nat} (hbelow : HeedfulBelow (innerDescent depth)) :
    (descent depth).Heedful := by
  have hsound : SoundBelow (innerDescent depth) depth := by
    intro inner hinner
    cases depth with
    | zero => cases hinner
    | succ depth =>
      cases hinner
      exact ⟨depth, rfl, descent_sound depth⟩
  rw [descent_eq]
  constructor
  · intro p ts hp
    exact expression_heeds hsound hbelow hp ts
  · intro ts
    apply (unaryOrPower_heeds hsound hbelow Precedence.operand ts).mono
    intro us h
    rcases h with hsigned | ⟨hle, _⟩
    · exact hsigned
    · exact absurd hle (by decide)

theorem descent_heedful (depth : Nat) : (descent depth).Heedful := by
  induction depth with
  | zero =>
    apply heedful_of_below
    intro inner hinner
    cases hinner
  | succ depth ih =>
    apply heedful_of_below
    intro inner hinner
    cases hinner
    exact ih

theorem furtherItems_heeds {outermost : Descent} {d : Nat} (hsound : outermost.Sound d)
    (houtermost : outermost.Heedful) (ts : List Lexeme) :
    Heeds (fun us => outcome (furtherItems outermost us)) ts fun us =>
      ∃ vs, us = .symbol .comma :: vs ∧ Begins .items vs := by
  induction ts using Lexeme.shorter with
  | step ts ih =>
    apply Heeds.congr (fun us _ => outcome_furtherItems outermost us)
    apply Heeds.ite (p := (· = .symbol .comma))
      (f := fun us =>
        if next us = .eof then .ok ([], us)
        else outcome (outermost.expression Precedence.or us) >>= fun item =>
          outcome (furtherItems outermost item.2) >>= fun others => .ok (item.1 :: others.1, others.2))
      (by simp)
    · rintro comma rest rfl hcomma
      by_cases hend : next rest = .eof
      · apply Heeds.of_settles (.ok [])
        intro us halike
        rw [halike.next_eq]
        exact if_pos hend
      · apply Heeds.congr (g := fun us =>
          outcome (outermost.expression Precedence.or us) >>= fun item =>
          outcome (furtherItems outermost item.2) >>= fun others => .ok (item.1 :: others.1, others.2))
        · intro us halike
          rw [halike.next_eq]
          exact if_neg hend
        rw [hcomma]
        apply ((houtermost.expression .disjunction rest (by decide)).mono
          fun us h => ⟨us, rfl, h.lastItem⟩).bind (hsound.expression .disjunction rest (by decide))
        intro item used left hused hitem
        have hshort : left.length < (comma :: rest).length := by
          rw [hused, List.length_cons, List.length_append]
          omega
        apply Heeds.map (m := fun others => item :: others)
        apply (ih left hshort).mono
        rintro us ⟨vs, rfl, h⟩
        exact ⟨_, rfl, h.item hitem.1⟩
    · intro _
      exact .of_settles (.ok []) fun _ _ => rfl

theorem sentence_heeds (ts : List Lexeme) : Heeds sentence ts (Begins .sentence) := by
  have hsound := descent_sound maxDepth
  have hheedful := descent_heedful maxDepth
  unfold sentence
  apply ((hheedful.expression .disjunction ts (by decide)).mono fun us => Begins.single).bind
    (hsound.expression .disjunction ts (by decide))
  intro first used left _ hfirst
  by_cases hcomma : next left = .symbol .comma
  · apply Heeds.congr (g := fun us =>
      outcome (furtherItems (descent maxDepth) us) >>= fun others =>
        keep (tuple (first :: others.1)) others.2)
    · intro us halike
      dsimp only
      rw [halike.next_eq, if_pos hcomma]
    apply Heeds.map_keep (m := fun others => tuple (first :: others))
    apply (furtherItems_heeds hsound hheedful left).mono
    rintro us ⟨vs, rfl, h⟩
    exact h.bareTuple hfirst.1
  · apply Heeds.of_settles (.ok first)
    intro us halike
    dsimp only
    rw [halike.next_eq, if_neg hcomma]

/-- A whole text, with the end that is left of it. -/
def wholeSentence (ts : List Lexeme) : Except Fault (Expr × List Lexeme) :=
  sentence ts >>= fun whole => if next whole.2 = .eof then .ok whole else .error (unexpected whole.2)

theorem ofLexemes_eq_map (ts : List Lexeme) : ofLexemes ts = (wholeSentence ts).map Prod.fst := by
  rw [ofLexemes_eq, wholeSentence]
  cases sentence ts with
  | error fault => rfl
  | ok found =>
    obtain ⟨whole, left⟩ := found
    change (if next left = .eof then .ok whole else .error (unexpected left)) =
      Except.map Prod.fst (if next left = .eof then .ok (whole, left) else .error (unexpected left))
    split <;> rfl

theorem wholeSentence_heeds (ts : List Lexeme) : Heeds wholeSentence ts (Begins .sentence) := by
  unfold wholeSentence
  apply (sentence_heeds ts).bind (sentence_meets ts)
  intro whole used left _ hwhole
  by_cases hend : next left = .eof
  · apply Heeds.of_settles (.ok whole)
    intro us halike
    dsimp only
    rw [halike.next_eq, if_pos hend]
  · apply Heeds.unexpected
    · intro us halike
      dsimp only
      rw [halike.next_eq, if_neg hend]
    · rw [List.append_nil]
      exact hwhole.1.begins

end Expr

end Abacus
