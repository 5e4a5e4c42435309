import Abacus.Proofs.Counting.Agreement
import Abacus.Proofs.Grammar.Exactness

namespace Abacus.Counting

open Lexeme (next)
open Abacus.Expr (descend outcome)
open Parsed (ofTree ofTrees)

/-- A function of the parser to start at some place. -/
inductive Call where
  | sentence
  | expression (least : Nat)
  | unaryOrPower (least : Nat)
  | primary
  | atom
  | items (bracket : Bracket)
  | connectedTo (first : Expr) (op : Connective)
  | comparedTo (first : Expr)
  | tupleBehind (first : Expr)

namespace Call

/-- What the reader for the same part of the grammar returns. -/
def Value : Call → Type
  | items _ => List Expr
  | _ => Expr

/-- What the parser returns for it. -/
def Carried : Call → Type
  | items _ => List Parsed
  | _ => Parsed

/-- Trees with their own heights. -/
def carry : (call : Call) → call.Value → call.Carried
  | items _ => ofTrees
  | sentence | expression _ | unaryOrPower _ | primary | atom | connectedTo _ _ | comparedTo _
  | tupleBehind _ => ofTree

/-- The parser calls for a chain where a link of the chain comes next. -/
def IsDue (ts : List Lexeme) : Call → Prop
  | connectedTo _ op => Link.ofToken? (next ts) = some (.connective op)
  | comparedTo _ => ∃ op, Link.ofToken? (next ts) = some (.comparison op)
  | _ => True

def steps (ls : List Lexeme) (fuel : Nat) : (call : Call) → Steps call.Carried
  | sentence => Counting.sentence ls (callees ls fuel) fuel
  | expression least => Counting.expression ls (callees ls fuel) fuel least
  | unaryOrPower least => Counting.unaryOrPower ls (callees ls fuel) fuel least
  | primary => Counting.primary ls (callees ls fuel) fuel
  | atom => Counting.atom ls (callees ls fuel) fuel
  | items bracket => Counting.items ls (callees ls fuel) fuel bracket
  | connectedTo first op => Counting.connectedTo ls (callees ls fuel) fuel (ofTree first) op
  | comparedTo first => Counting.comparedTo ls (callees ls fuel) fuel (ofTree first)
  | tupleBehind first => Counting.tupleBehind ls (callees ls fuel) fuel (ofTree first)

/-- A chain that starts with the lexeme that comes next. -/
def chain (descents : Nat) (first : Expr) (ts : List Lexeme) : Except Fault (Expr × List Lexeme) :=
  match ts, Link.ofToken? (next ts) with
  | lexeme :: rest, some link => outcome (Expr.extend (below descents) first link lexeme rest)
  | ts, _ => .error (Lexeme.unexpected ts)

/-- What is read there when nothing is counted. -/
def reading (descents : Nat) (ts : List Lexeme) : (call : Call) → Except Fault (call.Value × List Lexeme)
  | sentence => sentenceFrom descents ts
  | expression least => outcome (Expr.expression (below descents) least ts)
  | unaryOrPower least => outcome (Expr.unaryOrPower (below descents) least ts)
  | primary => outcome (Expr.primary (below descents) ts)
  | atom => outcome (Expr.atom (below descents) ts)
  | items bracket => descend (below descents) ts >>= fun inner => outcome (Expr.items inner bracket ts)
  | connectedTo first _ | comparedTo first => chain descents first ts
  | tupleBehind first => tupleFrom descents first ts

theorem chain_cons {lexeme : Lexeme} {link : Link} (h : Link.ofToken? lexeme.token = some link)
    (descents : Nat) (first : Expr) (rest : List Lexeme) :
    chain descents first (lexeme :: rest) =
      outcome (Expr.extend (below descents) first link lexeme rest) := by
  unfold chain
  rw [Expr.next_cons, h]

variable {ls : List Lexeme} {pos fuel : Nat}

theorem steps_tallies (hends : Ends ls) (call : Call) (descents : Nat) (hpos : pos < ls.length)
    (hdue : call.IsDue (ls.drop pos)) (hfuel : ls.length - pos ≤ fuel) :
    Tallies (Reached ls (pos + 1) descents call.carry) (call.steps ls fuel ⟨pos, descents⟩)
      (call.reading descents (ls.drop pos)) := by
  have hinner : Agree ls (callees ls fuel) pos := callees_agree hends hfuel
  have hbehind : Agree ls (callees ls fuel) (pos + 1) := hinner.behind (Nat.le_succ pos)
  obtain ⟨lexeme, hdrop⟩ := exists_lexeme hpos
  cases call with
  | sentence => exact sentence_tallies hends hinner hpos hfuel descents
  | expression least => exact expression_tallies hends hbehind hpos hfuel least descents
  | unaryOrPower least => exact unaryOrPower_tallies hends hbehind hpos hfuel least descents
  | primary => exact primary_tallies hends hbehind hpos hfuel descents
  | atom => exact atom_tallies hends hbehind hpos hfuel descents
  | items bracket => exact items_tallies hends hinner hpos hfuel bracket descents
  | tupleBehind first => exact tupleBehind_tallies hends hbehind hpos hfuel descents first
  | connectedTo first op =>
    have hlink : Link.ofToken? lexeme.token = some (.connective op) := by
      rw [hdrop] at hdue
      exact hdue
    have hchain := connectedTo_tallies hends hbehind hpos hfuel hdrop first hlink descents
    rw [← chain_cons hlink, ← hdrop] at hchain
    exact hchain
  | comparedTo first =>
    obtain ⟨op, hlink⟩ : ∃ op, Link.ofToken? lexeme.token = some (.comparison op) := by
      rw [hdrop] at hdue
      exact hdue
    have hchain := comparedTo_tallies hends hbehind hpos hfuel hdrop first hlink descents
    rw [← chain_cons hlink, ← hdrop] at hchain
    exact hchain

end Call

variable {source : String} {ls : List Lexeme} {fuel : Nat}

theorem ends_of_list (h : Lexeme.list source = .ok ls) : Ends ls := by
  obtain ⟨us, offset, hls, _⟩ := Expr.exists_of_list h
  exact ⟨us, offset, hls⟩

/-- All the lexemes are read as the readers read them, with fuel for each of them. -/
theorem ofLexemes_eq_of_fuel (hends : Ends ls) (hfuel : ls.length ≤ fuel) :
    ofLexemes ls fuel = (Expr.ofLexemes ls).mapError .fault := by
  have hpos : 0 < ls.length := by
    obtain ⟨us, offset, rfl⟩ := hends
    simp
  have hwhole := sentence_tallies hends (callees_agree hends (by omega)) hpos hfuel 0
  unfold ofLexemes
  rw [Expr.ofLexemes_eq]
  change Tallies _ _ (Expr.sentence ls) at hwhole
  generalize Expr.sentence ls = y at hwhole ⊢
  generalize sentence ls (callees ls fuel) fuel ⟨0, 0⟩ = found at hwhole ⊢
  cases hwhole with
  | fault fault => rfl
  | ok said =>
    cases said with
    | place hplace hless =>
      dsimp only [bind, Except.bind]
      split
      · rfl
      · rw [unexpected_eq hless]
        rfl

/-- Wherever a function of the parser starts, it returns or finds a fault with fuel for the lexemes that are
left, as the reader for the same part of the grammar does. What it returns is read from at least one lexeme,
of which none is the last, every tree in it comes with its own height, and as many descents are under way as
before. Nothing is stepped back over and no descent is left but what was counted before, since both would end
the parser in another way, and so would a round of a loop without a lexeme. The whole parser needs no more
fuel than there are lexemes. -/
theorem calls_keep_counts (h : Lexeme.list source = .ok ls) :
    (∀ (call : Call) (pos descents fuel : Nat), pos < ls.length → call.IsDue (ls.drop pos) →
      ls.length - pos ≤ fuel →
        (∃ value place, pos < place ∧ place < ls.length ∧
          call.steps ls fuel ⟨pos, descents⟩ = .ok (call.carry value, ⟨place, descents⟩) ∧
          call.reading descents (ls.drop pos) = .ok (value, ls.drop place)) ∨
        ∃ fault, call.steps ls fuel ⟨pos, descents⟩ = .error (.fault fault) ∧
          call.reading descents (ls.drop pos) = .error fault) ∧
      ∀ fuel, ls.length ≤ fuel → ofLexemes ls fuel = (Expr.parse source).mapError .fault := by
  have hends := ends_of_list h
  constructor
  · intro call pos descents fuel hpos hdue hfuel
    have htallies := call.steps_tallies hends descents hpos hdue hfuel
    generalize call.steps ls fuel ⟨pos, descents⟩ = found at htallies ⊢
    generalize call.reading descents (ls.drop pos) = y at htallies ⊢
    cases htallies with
    | fault fault => exact .inr ⟨fault, rfl, rfl⟩
    | ok said =>
      cases said with
      | place hplace hless => exact .inl ⟨_, _, hplace, hless, rfl, rfl⟩
  · intro fuel hfuel
    rw [Expr.parse_of_list h]
    exact ofLexemes_eq_of_fuel hends hfuel

/-- The chain and the arguments in it are two descents, for which there is room under 398 others only. -/
theorem calls_keep_counts_chain :
    let source := "x and f(1,)"
    let ls : List Lexeme := [⟨.name "x", 0⟩, ⟨.keyword .and, 2⟩, ⟨.name "f", 6⟩, ⟨.opening .round, 7⟩,
      ⟨.int 1, 8⟩, ⟨.symbol .comma, 9⟩, ⟨.closing .round, 10⟩, ⟨.eof, 11⟩]
    let call : Call := .connectedTo (.name "x") .and
    let fault : Fault := .malformed .nestedTooDeeply 8
    Lexeme.list source = .ok ls ∧ 1 < ls.length ∧ call.IsDue (ls.drop 1) ∧ ls.length - 1 ≤ 7 ∧
      (∃ value, call.steps ls 7 ⟨1, 398⟩ = .ok (ofTree value, ⟨7, 398⟩) ∧
        call.reading 398 (ls.drop 1) = .ok (value, ls.drop 7)) ∧
      call.steps ls 7 ⟨1, 399⟩ = .error (.fault fault) ∧ call.reading 399 (ls.drop 1) = .error fault ∧
      ofLexemes ls 8 = (Expr.parse source).mapError .fault := by
  intro source ls call fault
  have hlist : Lexeme.list source = .ok ls := eq_ok_of_toOption (by decide +kernel)
  have hpos : 1 < ls.length := by decide
  have hdue : call.IsDue (ls.drop 1) := rfl
  have hfuel : ls.length - 1 ≤ 7 := by decide
  obtain ⟨hcalls, hwhole⟩ := calls_keep_counts hlist
  refine ⟨hlist, hpos, hdue, hfuel, ?_, ?_⟩
  · have hplace : (call.steps ls 7 ⟨1, 398⟩).map Prod.snd = .ok ⟨7, 398⟩ := rfl
    rcases hcalls call 1 398 7 hpos hdue hfuel with ⟨value, place, _, _, hsteps, hreading⟩ | ⟨_, hsteps, _⟩
    · rw [hsteps] at hplace
      cases hplace
      exact ⟨value, hsteps, hreading⟩
    · rw [hsteps] at hplace
      cases hplace
  · have hfault : (call.steps ls 7 ⟨1, 399⟩).map Prod.snd = .error (.fault fault) := rfl
    rcases hcalls call 1 399 7 hpos hdue hfuel with ⟨_, _, _, _, hsteps, _⟩ | ⟨_, hsteps, hreading⟩
    · rw [hsteps] at hfault
      cases hfault
    · rw [hsteps] at hfault
      cases hfault
      exact ⟨hsteps, hreading, hwhole 8 (Nat.le_refl _)⟩

end Abacus.Counting
