import Abacus.Proofs.Grammar.Nesting

namespace Abacus

open Lexeme (nest matchBrackets maxOpen)

def Token.isOpening : Token → Bool
  | opening _ => true
  | _ => false

def Token.isClosing : Token → Bool
  | closing _ => true
  | _ => false

/-- Brackets that pair off, with no more than 100 open at any place. -/
structure WellNested (ts : List Token) : Prop where
  balanced : Balanced ts
  room : ∀ us, us <+: ts → us.countP Token.isOpening ≤ us.countP Token.isClosing + 100

/-- What is open behind tokens, innermost first: behind each open bracket the others pair off. -/
inductive Opens : List Bracket → List Token → Prop where
  | closed {ts} (balanced : Balanced ts) : Opens [] ts
  | opening {opened bracket ts us} (before : Opens opened ts) (inside : Balanced us) :
      Opens (bracket :: opened) (ts ++ .opening bracket :: us)

/-- How a bracket goes wrong behind tokens that go well. -/
inductive Blames (before : List Token) : Token → Malformation → Prop where
  | crowded {bracket}
      (full : before.countP Token.isOpening = before.countP Token.isClosing + 100) :
      Blames before (.opening bracket) .tooManyBrackets
  | unmatched {bracket} (balanced : Balanced before) :
      Blames before (.closing bracket) (.unmatchedBracket bracket)
  | mismatched {bracket innermost front inside}
      (opened : before = front ++ .opening innermost :: inside)
      (balanced : Balanced inside) (other : innermost ≠ bracket) :
      Blames before (.closing bracket) (.mismatchedBracket bracket innermost)

variable {ts us : List Token} {t : Token} {opened stillOpened final : List Bracket}
  {bracket : Bracket}

@[simp] theorem countP_isOpening_opening (bracket : Bracket) (ts : List Token) :
    (.opening bracket :: ts).countP Token.isOpening = ts.countP Token.isOpening + 1 :=
  List.countP_cons_of_pos rfl

@[simp] theorem countP_isClosing_opening (bracket : Bracket) (ts : List Token) :
    (.opening bracket :: ts).countP Token.isClosing = ts.countP Token.isClosing :=
  List.countP_cons_of_neg Bool.false_ne_true

@[simp] theorem countP_isOpening_closing (bracket : Bracket) (ts : List Token) :
    (.closing bracket :: ts).countP Token.isOpening = ts.countP Token.isOpening :=
  List.countP_cons_of_neg Bool.false_ne_true

@[simp] theorem countP_isClosing_closing (bracket : Bracket) (ts : List Token) :
    (.closing bracket :: ts).countP Token.isClosing = ts.countP Token.isClosing + 1 :=
  List.countP_cons_of_pos rfl

theorem Balanced.countP_eq (h : Balanced ts) :
    ts.countP Token.isOpening = ts.countP Token.isClosing := by
  induction h with
  | nil => rfl
  | @token t ts plain _ ih =>
    cases t with
    | opening | closing => cases plain
    | _ => exact ih
  | brackets _ _ ihinner ihothers =>
    simp only [List.countP_append, countP_isOpening_opening, countP_isClosing_opening,
      countP_isOpening_closing, countP_isClosing_closing, ihinner, ihothers]
    omega

namespace Opens

theorem append (h : Opens opened ts) (hus : Balanced us) : Opens opened (ts ++ us) := by
  cases h with
  | closed balanced => exact .closed (balanced.append hus)
  | opening before inside =>
    rw [List.append_assoc, List.cons_append]
    exact .opening before (inside.append hus)

theorem close (h : Opens (bracket :: opened) ts) : Opens opened (ts ++ [.closing bracket]) := by
  cases h with
  | opening before inside =>
    rw [List.append_assoc]
    exact before.append (inside.enclosed bracket)

theorem countP_eq (h : Opens opened ts) :
    ts.countP Token.isOpening = ts.countP Token.isClosing + opened.length := by
  induction h with
  | closed balanced => exact balanced.countP_eq
  | opening _ inside ih =>
    simp only [List.countP_append, countP_isOpening_opening, countP_isClosing_opening, ih,
      inside.countP_eq, List.length_cons]
    omega

theorem balanced (h : Opens [] ts) : Balanced ts := by
  cases h with
  | closed balanced => exact balanced

theorem exists_inside (h : Opens (bracket :: opened) ts) :
    ∃ front inside, ts = front ++ .opening bracket :: inside ∧ Balanced inside := by
  cases h with
  | @opening _ _ front inside _ hinside => exact ⟨front, inside, rfl, hinside⟩

end Opens

theorem nest_append_eq (opened : List Bracket) (ts us : List Token) :
    nest opened (ts ++ us) = (nest opened ts).bind fun middle => nest middle us := by
  induction ts generalizing opened with
  | nil => rfl
  | cons t ts ih =>
    rw [List.cons_append, nest, nest]
    cases matchBrackets 0 opened t with
    | error fault => rfl
    | ok stillOpened => exact ih stillOpened

/-- One token more keeps what is open in its shape, and within the room there is. -/
theorem Opens.matchBrackets {offset : Nat} (h : Opens opened ts) (hroom : opened.length ≤ maxOpen)
    (hmatch : matchBrackets offset opened t = .ok stillOpened) :
    Opens stillOpened (ts ++ [t]) ∧ stillOpened.length ≤ maxOpen := by
  rcases matchBrackets_eq_ok hmatch with ⟨bracket, rfl, hfree, rfl⟩ | ⟨bracket, rfl, rfl⟩ |
    ⟨hplain, rfl⟩
  · exact ⟨.opening h .nil, hfree⟩
  · exact ⟨h.close, Nat.le_of_succ_le hroom⟩
  · exact ⟨h.append (.single hplain), hroom⟩

/-- Brackets stay open in this shape, and never more than there is room for. -/
theorem Opens.nest (hbefore : Opens opened ts) (hroom : opened.length ≤ maxOpen)
    (h : nest opened us = some final) : Opens final (ts ++ us) ∧ final.length ≤ maxOpen := by
  induction us generalizing opened ts with
  | nil =>
    cases h
    rw [List.append_nil]
    exact ⟨hbefore, hroom⟩
  | cons t us ih =>
    obtain ⟨stillOpened, hmatch, hrest⟩ := nest_cons_eq_some h
    obtain ⟨hopens, hfits⟩ := hbefore.matchBrackets hroom hmatch
    have hall := ih hopens hfits hrest
    rwa [List.append_assoc] at hall

theorem opens_of_nest (h : nest [] ts = some opened) :
    Opens opened ts ∧ opened.length ≤ maxOpen :=
  Opens.nest (.closed .nil) (Nat.zero_le _) h

/-- The deepest place is behind one of the tokens. -/
theorem exists_peak (ts : List Token) :
    ∃ us, us <+: ts ∧ us.countP Token.isOpening = us.countP Token.isClosing + peak ts := by
  induction ts with
  | nil => exact ⟨[], List.nil_prefix, rfl⟩
  | cons t ts ih =>
    obtain ⟨us, hprefix, hcount⟩ := ih
    have hcons : t :: us <+: t :: ts := (List.prefix_cons_inj t).2 hprefix
    cases t with
    | opening bracket =>
      refine ⟨.opening bracket :: us, hcons, ?_⟩
      rw [countP_isOpening_opening, countP_isClosing_opening, hcount, peak, Nat.add_assoc]
    | closing bracket =>
      -- If nothing is opened behind the closing bracket, no place is deeper than the start.
      by_cases hflat : peak ts = 0
      · refine ⟨[], List.nil_prefix, ?_⟩
        simp [peak, hflat]
      · refine ⟨.closing bracket :: us, hcons, ?_⟩
        rw [countP_isOpening_closing, countP_isClosing_closing, hcount, peak]
        omega
    | _ => exact ⟨_, hcons, hcount⟩

/-- Matching brackets accepts the well-nested words, and no others. -/
theorem nest_eq_some_nil_iff : nest [] ts = some [] ↔ WellNested ts := by
  constructor
  · intro h
    refine ⟨(opens_of_nest h).1.balanced, ?_⟩
    rintro us ⟨vs, rfl⟩
    rw [nest_append_eq] at h
    obtain ⟨middle, hmiddle, _⟩ := Option.bind_eq_some_iff.1 h
    obtain ⟨hopens, hroom⟩ := opens_of_nest hmiddle
    rw [hopens.countP_eq]
    exact Nat.add_le_add_left hroom _
  · rintro ⟨hbalanced, hroom⟩
    obtain ⟨us, hprefix, hcount⟩ := exists_peak ts
    have hpeak := hroom us hprefix
    rw [hcount] at hpeak
    exact hbalanced.nest_eq (Nat.le_of_add_le_add_left hpeak)

/-- Brackets that are open can be closed. -/
theorem nest_closing (opened : List Bracket) : nest opened (opened.map .closing) = some [] := by
  induction opened with
  | nil => rfl
  | cons bracket opened ih =>
    rw [List.map_cons, nest]
    simp only [matchBrackets, if_true]
    exact ih

/-- A bracket that does not match is at fault in one of three ways. -/
theorem blames_of_matchBrackets {offset : Nat} {fault : Fault} (h : nest [] ts = some opened)
    (hmatch : matchBrackets offset opened t = .error fault) :
    ∃ cause, fault = .malformed cause offset ∧ Blames ts t cause := by
  obtain ⟨hopens, hroom⟩ := opens_of_nest h
  cases t with
  | opening bracket =>
    simp only [matchBrackets] at hmatch
    split at hmatch
    · rename_i hfull
      cases hmatch
      refine ⟨_, rfl, .crowded ?_⟩
      rw [hopens.countP_eq, Nat.le_antisymm hroom hfull, maxOpen]
    · cases hmatch
  | closing bracket =>
    simp only [matchBrackets] at hmatch
    split at hmatch
    · cases hmatch
      exact ⟨_, rfl, .unmatched hopens.balanced⟩
    · split at hmatch
      · cases hmatch
      · rename_i hother
        cases hmatch
        obtain ⟨front, inside, hbefore, hinside⟩ := hopens.exists_inside
        exact ⟨_, rfl, .mismatched hbefore hinside hother⟩
  | _ => cases hmatch

end Abacus
