import Abacus.Proofs.Grammar.Exactness
import Abacus.Proofs.Token.Literal

namespace Abacus

open Text Token
open Lexeme (listFrom matchBrackets tokens isSpacing)
open Abacus.Expr (parse)

/-- Wherever the text stands, reading it comes to the rest once it has taken the tokens. -/
def Takes (opened : List Bracket) (text : List Char) (ts : List Token) (stillOpened : List Bracket)
    (rest : List Char) : Prop :=
  ∀ offset, ∃ ls stop, tokens ls = ts ∧
    listFrom offset opened text = (listFrom stop stillOpened rest).map (ls ++ ·)

/-- Wherever the text stands, reading it stops with the fault. -/
def Refuses (opened : List Bracket) (text : List Char) (fault : Fault) : Prop :=
  ∀ offset, listFrom offset opened text = .error fault

variable {opened middle stillOpened : List Bracket} {w text rest : List Char} {t : Token}
  {ts us : List Token} {fault : Fault}

namespace Takes

theorem append (h : Takes opened text ts middle rest) {last : List Char}
    (hrest : Takes middle rest us stillOpened last) : Takes opened text (ts ++ us) stillOpened last := by
  intro offset
  obtain ⟨ls, next, rfl, hlist⟩ := h offset
  obtain ⟨ms, stop, rfl, hmore⟩ := hrest next
  refine ⟨ls ++ ms, stop, Lexeme.tokens_append ls ms, ?_⟩
  rw [hlist, hmore, Lexeme.map_append_map]

theorem token (spells : Spells w t) (hclear : Clear t.continues rest)
    (hmatch : matchBrackets 0 opened t = .ok stillOpened) :
    Takes opened (w ++ rest) [t] stillOpened rest := by
  intro offset
  have hblank : ∀ c ∈ ([] : List Char), isSpacing c := List.forall_mem_nil _
  obtain ⟨start, stop, hlist⟩ :=
    Lexeme.listFrom_token hblank spells (spells.scan 0 rest hclear) hmatch
  exact ⟨[⟨t, start⟩], stop, rfl, hlist⟩

theorem symbol {sign : Symbol} (hclear : Clear sign.continues rest) :
    Takes opened (sign.spelling ++ rest) [.symbol sign] opened rest :=
  token (spells_symbol sign) hclear rfl

theorem opening (hroom : opened.length < Lexeme.maxOpen) :
    Takes opened ('(' :: rest) [.opening .round] (.round :: opened) rest :=
  token (spells_opening .round) (fun _ _ => rfl) (if_neg (Nat.not_le_of_lt hroom))

theorem closing : Takes (.round :: opened) (')' :: rest) [.closing .round] opened rest :=
  token (spells_closing .round) (fun _ _ => rfl) rfl

theorem refuses (h : Takes opened text ts stillOpened rest) (hrest : Refuses stillOpened rest fault) :
    Refuses opened text fault := by
  intro offset
  obtain ⟨ls, stop, _, hlist⟩ := h offset
  rw [hlist, hrest stop]
  rfl

/-- A text that is read to its end has the tokens that were taken. -/
theorem list {source : String} (h : Takes [] source.toList ts [] []) :
    ∃ ls offset, Lexeme.list source = .ok (ls ++ [⟨.eof, offset⟩]) ∧ tokens ls = ts := by
  obtain ⟨ls, stop, htokens, hlist⟩ := h 0
  refine ⟨ls, stop, ?_, htokens⟩
  rw [Lexeme.list, hlist, listFrom]
  rfl

end Takes

theorem isSpacing_of_startsNumber {c : Char} (h : startsNumber (c :: text)) : isSpacing c = false := by
  cases hspacing : isSpacing c with
  | false => rfl
  | true =>
    simp only [isSpacing, Bool.or_eq_true, beq_iff_eq] at hspacing
    rcases hspacing with (((rfl | rfl) | rfl) | rfl) | rfl <;> cases h

/-- A text that starts with a number is refused for what is wrong with the number. -/
theorem listFrom_of_scan {offset : Nat} (hstart : startsNumber text)
    (h : Token.scan offset text = .error fault) : listFrom offset opened text = .error fault := by
  cases text with
  | nil => cases hstart
  | cons c text =>
    have hspacing := isSpacing_of_startsNumber hstart
    have hdrop : (c :: text).dropWhile isSpacing = c :: text :=
      List.dropWhile_cons_of_neg (by rw [hspacing]; decide)
    have htake : (c :: text).takeWhile isSpacing = [] :=
      List.takeWhile_cons_of_neg (by rw [hspacing]; decide)
    rw [listFrom.eq_def]
    dsimp only
    split
    · rename_i hnil
      rw [hdrop] at hnil
      cases hnil
    · rename_i hcons
      rw [hdrop] at hcons
      cases hcons
      rw [htake, show offset + Utf8.size [] = offset from rfl, h]

theorem listFrom_numeral {n : Numeral} {offset : Nat} (hstart : startsNumber text)
    (hscan : Numeral.scan text = (n, rest)) (hrest : Clear isNameChar rest)
    (htoken : n.toToken offset false = .error fault) : listFrom offset opened text = .error fault := by
  apply listFrom_of_scan hstart
  rw [scan_of_startsNumber hstart, scanNumber_of_scan hscan hrest, htoken]
  rfl

theorem refuses_numeral {n : Numeral} (hstart : startsNumber text)
    (hscan : Numeral.scan text = (n, rest)) (hrest : Clear isNameChar rest)
    (htoken : ∀ offset, n.toToken offset false = .error .intTooLarge) :
    Refuses opened text .intTooLarge :=
  fun offset => listFrom_numeral hstart hscan hrest (htoken offset)

/-- A text that is read to its end as what the grammar derives is parsed. -/
theorem parse_of_takes {source : String} {d : Nat} {e : Expr} (h : Takes [] source.toList ts [] [])
    (hderives : Derives d .sentence ts e) (hdepth : d ≤ Expr.maxDepth)
    (hheight : e.height ≤ Expr.maxDepth) : parse source = .ok e := by
  obtain ⟨ls, offset, hlist, rfl⟩ := h.list
  rw [Expr.parse_of_list hlist]
  exact (Expr.ofLexemes_of_derives hderives rfl).resolve_right fun hdeep => hdeep.1 ⟨hdepth, hheight⟩

theorem parse_of_listFrom {source : String} (h : listFrom 0 [] source.toList = .error fault) :
    parse source = .error fault := by
  unfold parse Lexeme.list
  rw [h]
  rfl

theorem parse_of_refuses {source : String} (h : Refuses [] source.toList fault) :
    parse source = .error fault := parse_of_listFrom (h 0)

end Abacus
