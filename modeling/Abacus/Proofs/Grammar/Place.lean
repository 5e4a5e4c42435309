import Abacus.Proofs.Grammar.Binding

namespace Abacus

/-- What is due next in a text. -/
inductive Place where
  /-- An operand without a sign. -/
  | atom
  | operand
  /-- An operand, or the bracket that closes the items. -/
  | item
  /-- Whatever goes on from an operand, or closes a bracket. -/
  | link
  /-- The name behind a dot. -/
  | member
  deriving DecidableEq, Repr

/-- A token that is an operand by itself. -/
def Token.isLeaf : Token → Bool
  | .name _ => true
  | t => (Constant.ofToken? t).isSome

namespace Place

/-- What is due behind a token where an operand was due. -/
def afterOperand (signs closers : Bool) (t : Token) : Option Place :=
  if t.isLeaf then some link
  else match t with
    | .opening _ => some item
    | .closing _ => if closers then some link else none
    | t => if signs && (UnaryOp.ofToken? t).isSome then some operand else none

def afterLink : Token → Option Place
  | .opening _ | .symbol .comma => some item
  | .closing _ => some link
  | .symbol .dot => some member
  | .symbol .doubleStar => some operand
  | t => if (Link.ofToken? t).isSome then some operand else none

def afterMember : Token → Option Place
  | .name _ => some link
  | _ => none

/-- What is due behind a token, if the token may stand where this was due. -/
def after : Place → Token → Option Place
  | atom => afterOperand false false
  | operand => afterOperand true false
  | item => afterOperand true true
  | link => afterLink
  | member => afterMember

/-- What is due behind tokens that may stand here one after the other. -/
def run (place : Place) : List Token → Option Place
  | [] => some place
  | t :: ts => (place.after t).bind fun next => next.run ts

@[simp] theorem run_cons (place : Place) (t : Token) (ts : List Token) :
    place.run (t :: ts) = (place.after t).bind fun next => next.run ts := rfl

theorem run_append (place : Place) (ts us : List Token) :
    place.run (ts ++ us) = (place.run ts).bind fun next => next.run us := by
  induction ts generalizing place with
  | nil => rfl
  | cons t ts ih =>
    rw [List.cons_append, run_cons, run_cons]
    cases place.after t with
    | none => rfl
    | some next => exact ih next

/-- An operand is over, and a token goes on from it. -/
theorem run_across {place next : Place} {ts : List Token} {t : Token}
    (hrun : place.run ts = some link) (ht : afterLink t = some next) (us : List Token) :
    place.run (ts ++ t :: us) = next.run us := by
  rw [run_append, hrun, Option.bind_some, run_cons]
  change (afterLink t).bind _ = _
  rw [ht]
  rfl

/-- Items are over, and so is the operand that their closing bracket ends. -/
theorem run_closing {ts : List Token} (bracket : Bracket)
    (h : item.run ts = some item ∨ item.run ts = some link) :
    item.run (ts ++ [.closing bracket]) = some link := by
  rcases h with h | h
  · rw [run_append, h]
    cases bracket <;> rfl
  · exact run_across h rfl []

@[simp] theorem afterOperand_constant (signs closers : Bool) (c : Constant) :
    afterOperand signs closers c.token = some link := by
  cases c with
  | bool b => cases b <;> rfl
  | _ => rfl

@[simp] theorem afterLink_connective (op : Connective) : afterLink op.token = some operand := by
  cases op <;> rfl

@[simp] theorem afterLink_comparison (op : Comparison) :
    afterLink (.symbol op.symbol) = some operand := by
  cases op <;> rfl

theorem run_comparison (op : Comparison) (ts : List Token) :
    link.run (.symbol op.symbol :: ts) = operand.run ts := by
  change (afterLink (.symbol op.symbol)).bind _ = _
  rw [afterLink_comparison]
  rfl

theorem afterLink_symbol {level : Level} {op : BinaryOp} (h : op ∈ level.operators) :
    afterLink (.symbol op.symbol) = some operand := by
  cases op with
  | pow => cases level <;> exact absurd h (by decide)
  | _ => rfl

/-- A walk does not come to the end of an operand without a token. -/
theorem exists_head {place : Place} {ts : List Token} (h : place.run ts = some link)
    (hplace : place ≠ link) : ∃ t us, ts = t :: us ∧ (place.after t).isSome := by
  cases ts with
  | nil =>
    cases h
    exact absurd rfl hplace
  | cons t us =>
    rw [run_cons] at h
    obtain ⟨next, hnext, _⟩ := Option.bind_eq_some_iff.1 h
    exact ⟨t, us, rfl, by rw [hnext]; rfl⟩

theorem ofToken?_eq_none_of_after_atom {t : Token} (h : (atom.after t).isSome) :
    UnaryOp.ofToken? t = none := by
  cases t with
  | symbol sign => cases sign <;> first | rfl | cases h
  | keyword word => cases word <;> first | rfl | cases h
  | _ => rfl

theorem afterOperand_mono {signs signs' closers closers' : Bool} (hsigns : signs → signs')
    (hclosers : closers → closers') {t : Token} {next : Place}
    (h : afterOperand signs closers t = some next) : afterOperand signs' closers' t = some next := by
  unfold afterOperand at h ⊢
  split at h
  · rename_i hleaf
    rw [if_pos hleaf]
    exact h
  · rename_i hleaf
    rw [if_neg hleaf]
    split at h
    · exact h
    · split at h
      · rename_i hclosing
        rw [if_pos (hclosers hclosing)]
        exact h
      · cases h
    · split at h
      · rename_i hsign
        rw [Bool.and_eq_true] at hsign
        rw [if_pos (by rw [hsigns hsign.1, hsign.2]; rfl)]
        exact h
      · cases h

/-- Where more may stand, what could stand before still can. -/
theorem run_mono (place place' : Place) {ts : List Token}
    (hafter : ∀ t next, place.after t = some next → place'.after t = some next)
    (hplace : place ≠ link) (h : place.run ts = some link) : place'.run ts = some link := by
  cases ts with
  | nil =>
    cases h
    exact absurd rfl hplace
  | cons t ts =>
    rw [run_cons] at h ⊢
    obtain ⟨next, hnext, hrest⟩ := Option.bind_eq_some_iff.1 h
    rw [hafter t next hnext]
    exact hrest

theorem run_operand_of_atom {ts : List Token} (h : atom.run ts = some link) :
    operand.run ts = some link :=
  run_mono atom operand (fun _ _ => afterOperand_mono (fun _ => rfl) id) (by decide) h

theorem run_item_of_operand {ts : List Token} (h : operand.run ts = some link) :
    item.run ts = some link :=
  run_mono operand item (fun _ _ => afterOperand_mono id (fun _ => rfl)) (by decide) h

end Place

/-- Where a phrase may start. -/
def Phrase.place : Phrase → Place
  | power | primary | atom => .atom
  | _ => .operand

theorem Phrase.run_of_tighter {p q : Phrase} (h : p.tighter? = some q) {ts : List Token}
    (hrun : q.place.run ts = some .link) : p.place.run ts = some .link := by
  cases p with
  | signed =>
    cases h
    exact Place.run_operand_of_atom hrun
  | binary level =>
    cases h
    cases level <;> exact hrun
  | atom => cases h
  | _ =>
    cases h
    exact hrun

theorem Phrase.run_operand {p : Phrase} {ts : List Token} (hrun : p.place.run ts = some .link) :
    Place.operand.run ts = some .link := by
  cases p with
  | power | primary | atom => exact Place.run_operand_of_atom hrun
  | _ => exact hrun

theorem Phrase.place_ne_link (p : Phrase) : p.place ≠ .link := by
  cases p <;> exact Place.noConfusion

/-- The walk over what a category derives. -/
def Category.Walks : Category → List Token → Prop
  | phrase p, ts => p.place.run ts = some .link
  | operands _, ts => Place.operand.run ts = some .link
  | comparisons, ts => Place.link.run ts = some .link
  | items, ts => Place.item.run ts = some .item ∨ Place.item.run ts = some .link
  | sentence, ts => Place.operand.run ts = some .item ∨ Place.operand.run ts = some .link

theorem Derives.walks {d : Nat} {c : Category} {ts : List Token} {e : c.Tree}
    (h : Derives d c ts e) : c.Walks ts := by
  induction h with
  | single _ ih => exact .inr ih
  | bareTuple _ _ ihfirst ihothers =>
    have hrun := Place.run_across (t := .symbol .comma) (Phrase.run_operand ihfirst) rfl
    simp only [Category.Walks, hrun]
    exact ihothers
  | looser step _ ih => exact Phrase.run_of_tighter step ih
  | @connected _ op _ _ _ _ _ _ ihfirst ihothers =>
    have hrun := Place.run_across (Phrase.run_operand ihfirst) (Place.afterLink_connective op)
    cases op <;> exact (hrun _).trans ihothers
  | lastOperand _ ih => exact Phrase.run_operand ih
  | @operand _ op _ _ _ _ _ _ ihfirst ihothers =>
    have hrun := Place.run_across (Phrase.run_operand ihfirst) (Place.afterLink_connective op)
    exact (hrun _).trans ihothers
  | not _ ih => exact ih
  | compared _ _ ihfirst ihothers =>
    simp only [Category.Walks, Phrase.place] at ihfirst ihothers ⊢
    rw [Place.run_append, ihfirst]
    exact ihothers
  | lastComparison op _ ih =>
    simp only [Category.Walks, Place.run_comparison]
    exact Phrase.run_operand ih
  | comparison op _ _ ihfirst ihothers =>
    simp only [Category.Walks, Phrase.place] at ihfirst ihothers ⊢
    rw [List.cons_append, Place.run_comparison, Place.run_append, ihfirst]
    exact ihothers
  | @binary _ level _ _ _ _ _ mem _ _ ihleft ihright =>
    exact (Place.run_across ihleft (Place.afterLink_symbol mem) _).trans (Phrase.run_operand ihright)
  | @signed _ op _ _ sign _ ih =>
    cases op with
    | not => exact absurd rfl sign
    | _ => exact ih
  | power _ _ ihbase ihexponent =>
    exact (Place.run_across (t := .symbol .doubleStar) ihbase rfl _).trans ihexponent
  | call _ _ ihcallee iharguments =>
    simp only [Category.Walks, Phrase.place] at ihcallee ⊢
    rw [List.append_assoc, List.cons_append]
    exact (Place.run_across ihcallee rfl _).trans (Place.run_closing .round iharguments)
  | subscript _ _ ihtarget ihindex =>
    simp only [Category.Walks, Phrase.place] at ihtarget ⊢
    rw [List.append_assoc, List.cons_append]
    have hindex := Place.run_item_of_operand (Phrase.run_operand ihindex)
    exact (Place.run_across ihtarget rfl _).trans (Place.run_closing .square (.inr hindex))
  | member text _ ih => exact (Place.run_across (t := .symbol .dot) ih rfl _).trans rfl
  | constant c =>
    change (Place.afterOperand false false c.token).bind _ = _
    rw [Place.afterOperand_constant]
    rfl
  | name text => rfl
  | empty => rfl
  | group _ ih => exact Place.run_closing .round (.inr (Place.run_item_of_operand ih))
  | tuple _ _ ihfirst ihothers =>
    have hrun := Place.run_across (t := .symbol .comma) (Place.run_item_of_operand ihfirst) rfl
    simp only [Category.Walks] at ihothers
    rw [← hrun] at ihothers
    rw [List.cons_append]
    exact Place.run_closing .round ihothers
  | list _ ih => exact Place.run_closing .square ih
  | noItem => exact .inl rfl
  | lastItem _ ih => exact .inr (Place.run_item_of_operand ih)
  | item _ _ ihfirst ihothers =>
    have hrun := Place.run_across (t := .symbol .comma) (Place.run_item_of_operand ihfirst) rfl
    simp only [Category.Walks, hrun]
    exact ihothers

/-- A phrase starts with a token that starts an operand. -/
theorem Derives.head {d : Nat} {p : Phrase} {ts : List Token} {e : Expr}
    (h : Derives d (.phrase p) ts e) : ∃ t us, ts = t :: us ∧ (p.place.after t).isSome :=
  Place.exists_head h.walks p.place_ne_link

end Abacus
