import Abacus.Proofs.Grammar.Phrase
import Abacus.Proofs.Token.Written

namespace Abacus

open Lexeme (nest matchBrackets maxOpen tokens Written listFrom)

def Token.isBracket : Token → Bool
  | opening _ | closing _ => true
  | _ => false

inductive Balanced : List Token → Prop where
  | nil : Balanced []
  | token {t ts} (plain : t.isBracket = false) (others : Balanced ts) : Balanced (t :: ts)
  | brackets {bracket ts us} (inner : Balanced ts) (others : Balanced us) :
      Balanced (.opening bracket :: (ts ++ .closing bracket :: us))

/-- How many brackets are open at the deepest place, beyond those before. -/
def peak : List Token → Nat
  | [] => 0
  | .opening _ :: ts => peak ts + 1
  | .closing _ :: ts => peak ts - 1
  | _ :: ts => peak ts

theorem peak_cons {t : Token} (h : t.isBracket = false) (ts : List Token) :
    peak (t :: ts) = peak ts := by
  cases t with
  | opening | closing => cases h
  | _ => rfl

namespace Balanced

variable {ts us : List Token} {t : Token} {bracket : Bracket}

theorem append (hts : Balanced ts) (hus : Balanced us) : Balanced (ts ++ us) := by
  induction hts with
  | nil => exact hus
  | token plain _ ih => exact .token plain ih
  | brackets inner _ _ ih =>
    rw [List.cons_append, List.append_assoc, List.cons_append]
    exact .brackets inner ih

theorem single (h : t.isBracket = false) : Balanced [t] := .token h .nil

theorem join (hts : Balanced ts) (ht : t.isBracket = false) (hus : Balanced us) :
    Balanced (ts ++ t :: us) :=
  hts.append (.token ht hus)

theorem enclosed (bracket : Bracket) (h : Balanced ts) :
    Balanced (.opening bracket :: ts ++ [.closing bracket]) :=
  .brackets h .nil

theorem peak_append (h : Balanced ts) (us : List Token) :
    peak (ts ++ us) = max (peak ts) (peak us) := by
  induction h generalizing us with
  | nil => exact (Nat.zero_max _).symm
  | token plain _ ih => rw [List.cons_append, peak_cons plain, peak_cons plain, ih]
  | brackets _ _ ihinner ihothers =>
    rw [List.cons_append, List.append_assoc, List.cons_append]
    simp only [peak, ihinner, ihothers]
    omega

theorem peak_enclosed (bracket : Bracket) (h : Balanced ts) :
    peak (.opening bracket :: ts ++ [.closing bracket]) = peak ts + 1 := by
  rw [List.cons_append]
  simp only [peak, h.peak_append]
  omega

/-- Balanced tokens leave the brackets open that were open before. -/
theorem nest_append (h : Balanced ts) {opened : List Bracket}
    (hroom : opened.length + peak ts ≤ maxOpen) (us : List Token) :
    nest opened (ts ++ us) = nest opened us := by
  induction h generalizing opened us with
  | nil => rfl
  | @token t _ plain _ ih =>
    rw [peak_cons plain] at hroom
    rw [List.cons_append, nest]
    cases t with
    | opening | closing => cases plain
    | _ => exact ih hroom us
  | @brackets bracket ts vs inner _ ihinner ihothers =>
    simp only [peak, inner.peak_append] at hroom
    have hopen : ¬maxOpen ≤ opened.length := by omega
    have hinner : (bracket :: opened).length + peak ts ≤ maxOpen := by
      rw [List.length_cons]
      omega
    rw [List.cons_append, List.append_assoc, List.cons_append, nest]
    simp only [matchBrackets, if_neg hopen]
    rw [ihinner hinner, nest]
    simp only [matchBrackets, if_true]
    exact ihothers (by omega) us

theorem nest_eq (h : Balanced ts) (hroom : peak ts ≤ maxOpen) : nest [] ts = some [] := by
  have hnest : nest [] (ts ++ []) = nest [] [] := h.nest_append (by simpa using hroom) []
  rwa [List.append_nil] at hnest

end Balanced

/-- A token that matches opens a bracket, closes the innermost one or is none. -/
theorem matchBrackets_eq_ok {offset : Nat} {opened stillOpened : List Bracket} {t : Token}
    (h : matchBrackets offset opened t = .ok stillOpened) :
    (∃ bracket, t = .opening bracket ∧ opened.length < maxOpen ∧ stillOpened = bracket :: opened) ∨
      (∃ bracket, t = .closing bracket ∧ opened = bracket :: stillOpened) ∨
      t.isBracket = false ∧ stillOpened = opened := by
  cases t with
  | opening bracket =>
    simp only [matchBrackets] at h
    split at h
    · cases h
    · cases h
      exact .inl ⟨bracket, rfl, Nat.lt_of_not_le ‹_›, rfl⟩
  | closing bracket =>
    simp only [matchBrackets] at h
    split at h
    · cases h
    · split at h
      · rename_i heq
        cases h
        subst heq
        exact .inr (.inl ⟨_, rfl, rfl⟩)
      · cases h
  | _ =>
    cases h
    exact .inr (.inr ⟨rfl, rfl⟩)

theorem nest_cons_eq_some {opened final : List Bracket} {t : Token} {ts : List Token}
    (h : nest opened (t :: ts) = some final) :
    ∃ stillOpened, matchBrackets 0 opened t = .ok stillOpened ∧ nest stillOpened ts = some final := by
  rw [nest] at h
  cases hmatch : matchBrackets 0 opened t with
  | error fault =>
    rw [hmatch] at h
    cases h
  | ok stillOpened =>
    rw [hmatch] at h
    exact ⟨stillOpened, rfl, h⟩

/-- Brackets that are accepted are never open in too great a number. -/
theorem peak_le_of_nest {opened final : List Bracket} {ts : List Token}
    (h : nest opened ts = some final) (hopened : opened.length ≤ maxOpen) :
    opened.length + peak ts ≤ maxOpen := by
  induction ts generalizing opened with
  | nil => exact hopened
  | cons t ts ih =>
    obtain ⟨stillOpened, hmatch, hothers⟩ := nest_cons_eq_some h
    have hrest := ih hothers
    rcases matchBrackets_eq_ok hmatch with ⟨bracket, rfl, hroom, rfl⟩ | ⟨bracket, rfl, rfl⟩ |
      ⟨hplain, rfl⟩
    · simp only [List.length_cons, peak] at hrest ⊢
      omega
    · simp only [List.length_cons, peak] at hrest hopened ⊢
      omega
    · rw [peak_cons hplain]
      exact hrest hopened

/-- Too many brackets are open at once. -/
def Crowded {α : Type} (x : Except Fault α) : Prop :=
  ∃ offset, x = .error (.malformed .tooManyBrackets offset)

theorem Crowded.map {α β : Type} {x : Except Fault α} (h : Crowded x) (f : α → β) :
    Crowded (x.map f) := by
  obtain ⟨offset, rfl⟩ := h
  exact ⟨offset, rfl⟩

/-- Reading a text that is written as these tokens and others comes to the others, unless too many
brackets are open on the way. -/
def Passes (offset : Nat) (opened : List Bracket) (text : List Char) (ts : List Token)
    (stillOpened : List Bracket) (us : List Token) : Prop :=
  Crowded (listFrom offset opened text) ∨
    ∃ ls stop rest, tokens ls = ts ∧ Written us rest ∧
      listFrom offset opened text = (listFrom stop stillOpened rest).map (ls ++ ·)

namespace Passes

variable {offset : Nat} {opened middle stillOpened : List Bracket} {text : List Char}
  {ts us vs : List Token} {t : Token}

theorem nil (h : Written us text) : Passes offset opened text [] opened us :=
  .inr ⟨[], offset, text, rfl, h, (Lexeme.map_nil_append _).symm⟩

theorem append (h : Passes offset opened text ts middle (us ++ vs))
    (hnext : ∀ stop rest, Written (us ++ vs) rest → Passes stop middle rest us stillOpened vs) :
    Passes offset opened text (ts ++ us) stillOpened vs := by
  rcases h with hcrowded | ⟨ls, stop, rest, rfl, hrest, hlist⟩
  · exact .inl hcrowded
  unfold Passes
  rw [hlist]
  rcases hnext stop rest hrest with hcrowded | ⟨ms, last, left, rfl, hleft, hmore⟩
  · exact .inl (hcrowded.map _)
  · refine .inr ⟨ls ++ ms, last, left, Lexeme.tokens_append ls ms, hleft, ?_⟩
    rw [hmore, Lexeme.map_append_map]

theorem token (h : Written (t :: us) text)
    (hmatch : ∀ start, Crowded (matchBrackets start opened t) ∨
      matchBrackets start opened t = .ok stillOpened) :
    Passes offset opened text [t] stillOpened us := by
  cases h with
  | token hblank spells ends others =>
    obtain ⟨start, stop, hlist⟩ := Lexeme.listFrom_step hblank spells ends offset opened
    unfold Passes
    rw [hlist]
    rcases hmatch start with ⟨place, hcrowded⟩ | hopened
    · rw [hcrowded]
      exact .inl ⟨place, rfl⟩
    · rw [hopened]
      exact .inr ⟨[⟨t, start⟩], stop, _, rfl, others, rfl⟩

theorem opening {bracket : Bracket} (h : Written (.opening bracket :: us) text) :
    Passes offset opened text [.opening bracket] (bracket :: opened) us := by
  apply token h
  intro start
  rw [matchBrackets]
  split
  · exact .inl ⟨start, rfl⟩
  · exact .inr rfl

theorem closing {bracket : Bracket} (h : Written (.closing bracket :: us) text) :
    Passes offset (bracket :: opened) text [.closing bracket] opened us :=
  token h fun _ => .inr (if_pos rfl)

theorem plain (ht : t.isBracket = false) (h : Written (t :: us) text) :
    Passes offset opened text [t] opened us := by
  apply token h
  intro start
  cases t with
  | opening | closing => cases ht
  | _ => exact .inr rfl

theorem balanced (hts : Balanced ts) (h : Written (ts ++ us) text) :
    Passes offset opened text ts opened us := by
  induction hts generalizing offset opened us text with
  | nil => exact nil h
  | token ht _ ih => exact append (plain ht h) fun stop rest hrest => ih hrest
  | @brackets bracket ts vs _ _ ihinner ihothers =>
    rw [List.cons_append, List.append_assoc, List.cons_append] at h
    have hopening : Passes offset opened text [.opening bracket] (bracket :: opened)
        (ts ++ .closing bracket :: vs ++ us) := by
      rw [List.append_assoc]
      exact opening h
    refine hopening.append fun stop rest hrest => ?_
    rw [List.append_assoc] at hrest
    refine Passes.append (ihinner hrest) fun stop rest hrest => ?_
    have hclosing : Passes stop (bracket :: opened) rest [.closing bracket] opened (vs ++ us) :=
      closing hrest
    exact hclosing.append fun stop rest hrest => ihothers hrest

end Passes

/-- A text that is written as balanced tokens has these tokens, unless too many brackets are open. -/
theorem Balanced.list_of_written {ts : List Token} (h : Balanced ts) {source : String}
    (hwritten : Written ts source.toList) :
    Crowded (Lexeme.list source) ∨
      ∃ ls, Lexeme.list source = .ok ls ∧ tokens ls = ts ++ [.eof] := by
  rw [← List.append_nil ts] at hwritten
  have hpasses : Passes 0 [] source.toList ts [] [] := .balanced h hwritten
  rcases hpasses with hcrowded | ⟨ls, stop, rest, rfl, hrest, hlist⟩
  · exact .inl hcrowded
  · obtain ⟨ms, hend, htokens⟩ := Lexeme.listFrom_of_written hrest (show nest [] [] = some [] from rfl) stop
    refine .inr ⟨ls ++ ms, ?_, ?_⟩
    · unfold Lexeme.list
      rw [hlist, hend]
      rfl
    · rw [Lexeme.tokens_append, htokens]
      rfl

theorem UnaryOp.isBracket_token (op : UnaryOp) : op.token.isBracket = false := by
  cases op <;> rfl

theorem Connective.isBracket_token (op : Connective) : op.token.isBracket = false := by
  cases op <;> rfl

theorem Constant.isBracket_token (c : Constant) : c.token.isBracket = false := by
  cases c with
  | bool b => cases b <;> rfl
  | _ => rfl

theorem Derives.balanced {d : Nat} {c : Category} {ts : List Token} {e : c.Tree}
    (h : Derives d c ts e) : Balanced ts := by
  induction h with
  | single _ ih | looser _ _ ih | lastOperand _ ih | lastItem _ ih => exact ih
  | bareTuple _ _ ihfirst ihothers | item _ _ ihfirst ihothers => exact ihfirst.join rfl ihothers
  | @connected _ op _ _ _ _ _ _ ihfirst ihothers | @operand _ op _ _ _ _ _ _ ihfirst ihothers =>
    exact ihfirst.join op.isBracket_token ihothers
  | not _ ih => exact .token rfl ih
  | compared _ _ ihfirst ihothers => exact ihfirst.append ihothers
  | lastComparison op _ ih => exact .token rfl ih
  | comparison op _ _ ihfirst ihothers => exact .token rfl (ihfirst.append ihothers)
  | binary _ _ _ ihleft ihright => exact ihleft.join rfl ihright
  | @signed _ op _ _ _ _ ih => exact .token op.isBracket_token ih
  | power _ _ ihbase ihexponent => exact ihbase.join rfl ihexponent
  | call _ _ ihcallee iharguments =>
    rw [List.append_assoc]
    exact ihcallee.append (iharguments.enclosed .round)
  | subscript _ _ ihtarget ihindex =>
    rw [List.append_assoc]
    exact ihtarget.append (ihindex.enclosed .square)
  | member _ _ ih => exact ih.append (.token rfl (.single rfl))
  | constant c => exact .single c.isBracket_token
  | name => exact .single rfl
  | empty => exact Balanced.nil.enclosed .round
  | group _ ih => exact ih.enclosed .round
  | tuple _ _ ihfirst ihothers => exact (ihfirst.join rfl ihothers).enclosed .round
  | list _ ih => exact ih.enclosed .square
  | noItem => exact .nil

end Abacus
