import Abacus.Proofs.Token.Numeral
import Abacus.Token.Scan

namespace Abacus

open Text

/-- The characters that make a longer symbol of this one, or a number. -/
def Symbol.continues (sign : Symbol) (c : Char) : Bool :=
  match sign with
  | star => c == '*'
  | slash => c == '/'
  | less => c == '<' || c == '='
  | greater => c == '>' || c == '='
  | dot => c == '.' || c.isDigit
  | _ => false

namespace Token

/-- The characters that a token must not be followed by to end where it does. -/
def continues (t : Token) (c : Char) : Bool :=
  match t with
  | int _ | float _ | imaginary _ => isNameChar c || c == '.'
  | name _ | keyword _ => isNameChar c
  | symbol sign => sign.continues c
  | _ => false

/-- The characters are read as the token, whatever follows that does not prolong it. -/
structure Spells (w : List Char) (t : Token) : Prop where
  ne_nil : w ≠ []
  scan : ∀ offset rest, Clear t.continues rest → scan offset (w ++ rest) = .ok (t, rest)

theorem startsNumber_of_ne_point {c : Char} (h : c ≠ '.') (rest : List Char) :
    startsNumber (c :: rest) = c.isDigit := by
  unfold startsNumber
  split
  · rename_i heq
    cases heq
    exact absurd rfl h
  · rename_i heq
    cases heq
    rfl
  · rename_i heq
    cases heq

theorem startsNumber_of_digits {ds : List Char} (hds : ∀ c ∈ ds, c.isDigit) (hne : ds ≠ [])
    (rest : List Char) : startsNumber (ds ++ rest) := by
  cases ds with
  | nil => exact absurd rfl hne
  | cons c ds =>
    have hc := hds c List.mem_cons_self
    rw [List.cons_append, startsNumber_of_ne_point (Numeral.ne_of_isDigit hc rfl)]
    exact hc

theorem isNameChar_of_isNameStart {c : Char} (h : isNameStart c) : isNameChar c := by
  simp only [isNameStart, isNameChar, Char.isAlphanum, Bool.or_eq_true] at h ⊢
  rcases h with halpha | hscore
  · exact .inl (.inl halpha)
  · exact .inr hscore

theorem toNat_of_isNameStart {c : Char} (h : isNameStart c) :
    (65 ≤ c.toNat ∧ c.toNat ≤ 90) ∨ (97 ≤ c.toNat ∧ c.toNat ≤ 122) ∨ c = '_' := by
  rcases Bool.or_eq_true_iff.1 h with halpha | hscore
  · rcases Bool.or_eq_true_iff.1 halpha with hupper | hlower
    · have hrange : 'A'.val ≤ c.val ∧ c.val ≤ 'Z'.val := of_decide_eq_true hupper
      exact .inl hrange
    · obtain ⟨hleast, hgreatest⟩ := Bool.and_eq_true_iff.1 hlower
      exact .inr (.inl ⟨of_decide_eq_true hleast, of_decide_eq_true hgreatest⟩)
  · exact .inr (.inr (beq_iff_eq.1 hscore))

theorem not_isDigit_of_isNameStart {c : Char} (h : isNameStart c) : c.isDigit = false := by
  cases hdigit : c.isDigit with
  | false => rfl
  | true =>
    have hrange : 48 ≤ c.toNat ∧ c.toNat ≤ 57 := Char.isDigit_iff_toNat.1 hdigit
    rcases toNat_of_isNameStart h with hupper | hlower | rfl
    · omega
    · omega
    · cases hdigit

theorem continues_ofName (text : String) (c : Char) : (ofName text).continues c = isNameChar c := by
  unfold ofName
  split <;> rfl

/-- A run of name characters is a name or a keyword. -/
theorem spells_ofName {c : Char} {w : List Char} (hstart : isNameStart c)
    (hw : ∀ d ∈ w, isNameChar d) : Spells (c :: w) (ofName (.ofList (c :: w))) := by
  refine ⟨List.cons_ne_nil c w, ?_⟩
  intro offset rest hrest
  have hall : ∀ d ∈ c :: w, isNameChar d := by
    intro d hd
    rcases List.mem_cons.1 hd with rfl | hd
    · exact isNameChar_of_isNameStart hstart
    · exact hw d hd
  have hpoint : c ≠ '.' := by
    rintro rfl
    cases hstart
  have hclear : Clear isNameChar rest := hrest.mono fun d hd => by rw [continues_ofName, hd]
  have htake := takeWhile_append hall hclear
  have hdrop := dropWhile_append hall hclear
  rw [List.cons_append] at htake hdrop ⊢
  simp only [Token.scan, startsNumber_of_ne_point hpoint, not_isDigit_of_isNameStart hstart, hstart,
    if_true, htake, hdrop]
  rfl

theorem spells_opening (bracket : Bracket) : Spells [bracket.opener] (opening bracket) := by
  cases bracket <;> exact ⟨List.cons_ne_nil _ _, fun _ _ _ => rfl⟩

theorem spells_closing (bracket : Bracket) : Spells [bracket.closer] (closing bracket) := by
  cases bracket <;> exact ⟨List.cons_ne_nil _ _, fun _ _ _ => rfl⟩

/-- A symbol is the longest at its place unless what follows makes a longer one of it. -/
theorem scan?_spelling (sign : Symbol) {rest : List Char} (h : Clear sign.continues rest) :
    Symbol.scan? (sign.spelling ++ rest) = some (sign, rest) := by
  cases rest with
  | nil => cases sign <;> rfl
  | cons c rest =>
    have hc := clear_cons.1 h
    simp only [Symbol.scan?, Symbol.longestFirst, List.findSome?]
    cases sign <;> simp_all [Symbol.spelling, after?, Symbol.continues, @eq_comm _ _ c]

/-- No symbol looks like the start of another kind of token. -/
theorem scan_of_symbol (sign : Symbol) {rest : List Char} (h : Clear sign.continues rest)
    (offset : Nat) :
    Token.scan offset (sign.spelling ++ rest) =
      match Symbol.scan? (sign.spelling ++ rest) with
      | some (sign, after) => .ok (symbol sign, after)
      | none => .error (.malformed (.invalidCharacter (sign.spelling.head?.getD ' ')) offset) := by
  cases sign with
  | dot =>
    cases rest with
    | nil => rfl
    | cons c rest =>
      have hdigit := (Bool.or_eq_false_iff.1 (clear_cons.1 h)).2
      have hstart : startsNumber ('.' :: c :: rest) = false := hdigit
      change Token.scan offset ('.' :: c :: rest) = _
      rw [Token.scan, hstart]
      rfl
  | _ => rfl

theorem spells_symbol (sign : Symbol) : Spells sign.spelling (symbol sign) := by
  refine ⟨by cases sign <;> exact List.cons_ne_nil _ _, ?_⟩
  intro offset rest hrest
  rw [scan_of_symbol sign hrest, scan?_spelling sign hrest]

theorem scanString_cons (quote : Char) {c : Char} (h : c ≠ '\\') (rest : List Char) :
    scanString quote (c :: rest) =
      if c = quote then some ([], rest)
      else if c = '\n' then none
      else (scanString quote rest).map fun (text, after) => (c :: text, after) := by
  simp [scanString, h]

/-- A backslash is read together with the character behind it, or it is the last character. -/
theorem ne_backslash {c : Char} {text : List Char} (hlast : c = '\\' → text = [] → False)
    (hnext : ∀ d rest, c = '\\' → text = d :: rest → False) : c ≠ '\\' := by
  intro hslash
  cases text with
  | nil => exact hlast hslash rfl
  | cons d rest => exact hnext d rest hslash rfl

/-- A closed string is read whatever stands behind its quote. -/
theorem scanString_local {quote : Char} {text after : List Char} {found : List Char}
    (h : scanString quote text = some (found, after)) :
    ∃ w, text = w ++ after ∧ ∀ rest, scanString quote (w ++ rest) = some (found, rest) := by
  fun_induction scanString quote text generalizing found with
  | case1 => cases h
  | case2 => cases h
  | case3 c text ih =>
    obtain ⟨⟨inner, rest⟩, hinner, heq⟩ := Option.map_eq_some_iff.1 h
    cases heq
    obtain ⟨w, rfl, hscan⟩ := ih hinner
    refine ⟨'\\' :: c :: w, rfl, fun rest => ?_⟩
    simp [scanString, hscan]
  | case4 text hlast hnext =>
    cases h
    refine ⟨[quote], rfl, fun rest => ?_⟩
    rw [List.singleton_append, scanString_cons quote (ne_backslash hlast hnext), if_pos rfl]
  | case5 => cases h
  | case6 c text hlast hnext hquote hnewline ih =>
    obtain ⟨⟨inner, rest⟩, hinner, heq⟩ := Option.map_eq_some_iff.1 h
    cases heq
    obtain ⟨w, rfl, hscan⟩ := ih hinner
    refine ⟨c :: w, rfl, fun rest => ?_⟩
    rw [List.cons_append, scanString_cons quote (ne_backslash hlast hnext), if_neg hquote,
      if_neg hnewline, hscan]
    rfl

theorem spells_str {quote : Char} (hquote : quote = '"' ∨ quote = '\'') {w found : List Char}
    (hscan : ∀ rest, scanString quote (w ++ rest) = some (found, rest)) :
    Spells (quote :: w) (str (.ofList found)) := by
  refine ⟨List.cons_ne_nil quote w, fun offset rest _ => ?_⟩
  rcases hquote with rfl | rfl
  · simp [Token.scan, startsNumber, isNameStart, hscan]
  · simp [Token.scan, startsNumber, isNameStart, hscan]

theorem spells_ofChar? {c : Char} {t : Token} (h : Bracket.ofChar? c = some t) : Spells [c] t := by
  unfold Bracket.ofChar? at h
  split at h
  · cases h
    exact spells_opening .round
  · cases h
    exact spells_opening .square
  · cases h
    exact spells_closing .round
  · cases h
    exact spells_closing .square
  · cases h

/-- The characters that occur in numbers. -/
def inNumber (c : Char) : Bool := Numeral.occurs c || c == 'j' || c == 'J'

theorem scanImaginaryMark_of_clear {rest : List Char} (h : Clear isNameChar rest) :
    scanImaginaryMark rest = (false, rest) := by
  unfold scanImaginaryMark
  split
  · exact absurd (clear_cons.1 h) (by decide)
  · exact absurd (clear_cons.1 h) (by decide)
  · rfl

theorem scanImaginaryMark_local {text : List Char} (h : Clear isNameChar (scanImaginaryMark text).2) :
    ∃ w, Local isNameChar scanImaginaryMark text w ∧ Clear Numeral.resumes w ∧
      ∀ c ∈ w, inNumber c := by
  unfold Local
  unfold scanImaginaryMark at h ⊢
  split
  · exact ⟨['j'], ⟨rfl, fun _ _ => rfl⟩, by simp; rfl, by simp; rfl⟩
  · exact ⟨['J'], ⟨rfl, fun _ _ => rfl⟩, by simp; rfl, by simp; rfl⟩
  · exact ⟨[], ⟨rfl, fun rest hrest => scanImaginaryMark_of_clear hrest⟩, clear_nil, by simp⟩

/-- Only its faults say where a number stands. -/
theorem toToken_offset {n : Numeral} {offset : Nat} {isImaginary : Bool} {t : Token}
    (h : n.toToken offset isImaginary = .ok t) (other : Nat) :
    n.toToken other isImaginary = .ok t := by
  unfold Numeral.toToken at h ⊢
  split at h
  · rwa [if_pos ‹_›]
  split at h
  · rwa [if_neg ‹_›, if_pos ‹_›]
  split at h
  · cases h
  · rwa [if_neg ‹_›, if_neg ‹_›, if_neg ‹_›]

/-- Every number but an integer in range is the nearest float of its literal. -/
theorem toToken_cases {n : Numeral} {offset : Nat} {isImaginary : Bool} {t : Token}
    (h : n.toToken offset isImaginary = .ok t) :
    t = imaginary n.toDecimal.toBinary64 ∨ t = float n.toDecimal.toBinary64 ∨
      t = int (.ofNat n.toDecimal.coefficient) ∧ n.toDecimal.coefficient < Numeral.intLimit := by
  unfold Numeral.toToken at h
  dsimp only at h
  split at h
  · cases h
    exact .inl rfl
  split at h
  · cases h
    exact .inr (.inl rfl)
  split at h
  · cases h
  split at h
  · cases h
    exact .inr (.inr ⟨rfl, ‹_›⟩)
  split at h
  · cases h
    exact .inr (.inl rfl)
  · cases h

theorem continues_toToken {n : Numeral} {offset : Nat} {isImaginary : Bool} {t : Token}
    (h : n.toToken offset isImaginary = .ok t) : t.continues = fun c => isNameChar c || c == '.' := by
  rcases toToken_cases h with rfl | rfl | ⟨rfl, _⟩ <;> rfl

theorem continues_of_resumes {c : Char} (h : Numeral.resumes c) : (isNameChar c || c == '.') = true := by
  simp only [Numeral.resumes, Bool.or_eq_true, beq_iff_eq] at h
  rcases h with ((hdigit | rfl) | rfl) | rfl
  · simp [isNameChar, Char.isAlphanum, hdigit]
  · rfl
  · rfl
  · rfl

/-- A number takes its point and the digit behind it together. -/
theorem startsNumber_append {text w rest : List Char} (hstart : startsNumber text)
    (htext : text = w ++ rest)
    (hshort : rest.length ≤ (Numeral.scanFraction (Numeral.afterDigits text)).2.length)
    (other : List Char) : startsNumber (w ++ other) := by
  cases w with
  | nil =>
    have hlt := length_afterFraction_lt hstart
    rw [List.nil_append] at htext
    rw [htext] at hlt hshort
    exact absurd hshort (Nat.not_le_of_lt hlt)
  | cons c w =>
    by_cases hpoint : c = '.'
    · subst hpoint
      cases w with
      | nil =>
        subst htext
        have hle := Numeral.length_afterDigits_le rest
        cases rest with
        | nil => cases hstart
        | cons d rest =>
          have hlt : (Numeral.afterDigits (d :: rest)).length < (d :: rest).length :=
            length_dropWhile_lt hstart
          exact absurd (Nat.lt_of_le_of_lt hshort hlt) (Nat.lt_irrefl _)
      | cons d w =>
        subst htext
        exact hstart
    · subst htext
      rw [List.cons_append, startsNumber_of_ne_point hpoint] at hstart ⊢
      exact hstart

theorem scanNumber_eq_ok_iff {offset : Nat} {text rest : List Char} {t : Token} :
    scanNumber offset text = .ok (t, rest) ↔
      rest = (scanImaginaryMark (Numeral.scan text).2).2 ∧ Clear isNameChar rest ∧
        (Numeral.scan text).1.toToken offset (scanImaginaryMark (Numeral.scan text).2).1 = .ok t := by
  have hclear (rest : List Char) : rest.head?.any isNameChar = false ↔ Clear isNameChar rest := by
    cases rest <;> simp
  unfold scanNumber
  dsimp only
  split
  · rename_i hname
    constructor
    · intro h
      cases h
    · rintro ⟨rfl, hend, _⟩
      rw [(hclear _).2 hend] at hname
      cases hname
  · rename_i hname
    have hend := (hclear _).1 (Bool.eq_false_iff.2 hname)
    cases (Numeral.scan text).1.toToken offset (scanImaginaryMark (Numeral.scan text).2).1 with
    | error fault =>
      constructor
      · intro h
        cases h
      · rintro ⟨_, _, h⟩
        cases h
    | ok token =>
      constructor
      · intro h
        cases h
        exact ⟨rfl, hend, rfl⟩
      · rintro ⟨rfl, _, h⟩
        cases h
        rfl

/-- What a number is, and where it ends, depends on nothing behind a character that ends it. -/
theorem exists_spells_number {offset : Nat} {text rest : List Char} {t : Token}
    (hstart : startsNumber text) (h : scanNumber offset text = .ok (t, rest)) :
    ∃ w, Spells w t ∧ text = w ++ rest := by
  obtain ⟨rfl, hclear, htoken⟩ := scanNumber_eq_ok_iff.1 h
  obtain ⟨n, ⟨hn, hnumeral⟩, _⟩ := Numeral.scan_local text
  obtain ⟨m, ⟨hm, hmark⟩, hmhead, _⟩ := scanImaginaryMark_local hclear
  have htext : text = n ++ m ++ (scanImaginaryMark (Numeral.scan text).2).2 := by
    rw [List.append_assoc, ← hm]
    exact hn
  have hshort := Nat.le_trans (length_scanImaginaryMark_le (Numeral.scan text).2)
    (Numeral.length_scan_le text)
  refine ⟨n ++ m, ⟨?_, ?_⟩, htext⟩
  · intro hnil
    have hagain := startsNumber_append hstart htext hshort []
    rw [hnil] at hagain
    cases hagain
  · intro other after hafter
    rw [continues_toToken htoken] at hafter
    have hnameChar : Clear isNameChar after := hafter.mono fun c hc => by simp [hc]
    have hresumes : Clear Numeral.resumes (m ++ after) :=
      hmhead.append (hafter.mono fun c hc => continues_of_resumes hc)
    have hagain := startsNumber_append hstart htext hshort after
    have hscan : scanNumber other (n ++ m ++ after) = .ok (t, after) := by
      rw [scanNumber_eq_ok_iff, List.append_assoc, hnumeral _ hresumes]
      dsimp only
      rw [hmark after hnameChar]
      exact ⟨rfl, hnameChar, toToken_offset htoken other⟩
    generalize n ++ m ++ after = all at hagain hscan
    cases all with
    | nil => cases hagain
    | cons c all =>
      simp only [Token.scan, hagain, if_true]
      exact hscan

/-- What starts a text decides which kind of token it is read as. -/
theorem scan_cases {offset : Nat} {c : Char} {text rest : List Char} {t : Token}
    (h : scan offset (c :: text) = .ok (t, rest)) :
    (startsNumber (c :: text) ∧ scanNumber offset (c :: text) = .ok (t, rest)) ∨
      (isNameStart c ∧ t = ofName (.ofList ((c :: text).takeWhile isNameChar)) ∧
        rest = (c :: text).dropWhile isNameChar) ∨
      ((c = '"' ∨ c = '\'') ∧ ∃ found, scanString c text = some (found, rest) ∧
        t = str (.ofList found)) ∨
      (Bracket.ofChar? c = some t ∧ rest = text) ∨
      ∃ sign, Symbol.scan? (c :: text) = some (sign, rest) ∧ t = symbol sign := by
  simp only [scan] at h
  split at h
  · exact .inl ⟨‹_›, h⟩
  split at h
  · cases h
    exact .inr (.inl ⟨‹_›, rfl, rfl⟩)
  split at h
  · rename_i hquote
    split at h
    · cases h
      exact .inr (.inr (.inl ⟨by simpa using hquote, _, ‹_›, rfl⟩))
    · cases h
  split at h
  · cases h
    exact .inr (.inr (.inr (.inl ⟨‹_›, rfl⟩)))
  split at h
  · cases h
    exact .inr (.inr (.inr (.inr ⟨_, ‹_›, rfl⟩)))
  · cases h

/-- Every token is read from one of its spellings. -/
theorem exists_spells {offset : Nat} {c : Char} {text rest : List Char} {t : Token}
    (h : scan offset (c :: text) = .ok (t, rest)) : ∃ w, Spells w t ∧ c :: text = w ++ rest := by
  rcases scan_cases h with ⟨hstart, hnumber⟩ | ⟨hname, rfl, rfl⟩ | ⟨hquote, found, hscan, rfl⟩ |
    ⟨hbracket, rfl⟩ | ⟨sign, hscan, rfl⟩
  · exact exists_spells_number hstart hnumber
  · refine ⟨(c :: text).takeWhile isNameChar, ?_, List.takeWhile_append_dropWhile.symm⟩
    rw [List.takeWhile_cons_of_pos (isNameChar_of_isNameStart hname)]
    exact spells_ofName hname (List.all_eq_true.1 List.all_takeWhile)
  · obtain ⟨w, rfl, hlocal⟩ := scanString_local hscan
    exact ⟨c :: w, spells_str hquote hlocal, rfl⟩
  · exact ⟨[c], spells_ofChar? hbracket, rfl⟩
  · exact ⟨sign.spelling, spells_symbol sign, Symbol.eq_spelling_append hscan⟩

/-- What a spelling of a token looks like. -/
def Shape (w : List Char) : Token → Prop
  | int _ | float _ | imaginary _ => startsNumber w ∧ ∀ c ∈ w, inNumber c
  | str _ => ∃ quote v, w = quote :: v ∧ (quote = '"' ∨ quote = '\'')
  | name _ | keyword _ => ∃ c v, w = c :: v ∧ isNameStart c
  | symbol sign => w = sign.spelling
  | opening bracket => w = [bracket.opener]
  | closing bracket => w = [bracket.closer]
  | eof => False

theorem shape_of_scanNumber {offset : Nat} {w : List Char} {t : Token} (hstart : startsNumber w)
    (h : scanNumber offset w = .ok (t, [])) : Shape w t := by
  obtain ⟨hrest, hclear, htoken⟩ := scanNumber_eq_ok_iff.1 h
  rw [hrest] at hclear
  obtain ⟨n, ⟨hn, _⟩, hnoccurs⟩ := Numeral.scan_local w
  obtain ⟨m, ⟨hm, _⟩, _, hmoccurs⟩ := scanImaginaryMark_local hclear
  have hall : ∀ c ∈ w, inNumber c := by
    intro c hc
    rw [hn, hm, ← hrest, List.append_nil, List.mem_append] at hc
    rcases hc with hc | hc
    · simp [inNumber, hnoccurs c hc]
    · exact hmoccurs c hc
  rcases toToken_cases htoken with rfl | rfl | ⟨rfl, _⟩ <;> exact ⟨hstart, hall⟩

theorem Spells.shape {w : List Char} {t : Token} (h : Spells w t) : Shape w t := by
  cases w with
  | nil => exact absurd rfl h.ne_nil
  | cons c v =>
    have hscan := h.scan 0 [] clear_nil
    rw [List.append_nil] at hscan
    rcases scan_cases hscan with ⟨hstart, hnumber⟩ | ⟨hname, rfl, _⟩ | ⟨hquote, _, _, rfl⟩ |
      ⟨hbracket, rfl⟩ | ⟨sign, hsign, rfl⟩
    · exact shape_of_scanNumber hstart hnumber
    · unfold ofName
      split <;> exact ⟨c, v, rfl, hname⟩
    · exact ⟨c, v, rfl, hquote⟩
    · unfold Bracket.ofChar? at hbracket
      split at hbracket <;> cases hbracket <;> rfl
    · have hspelling := Symbol.eq_spelling_append hsign
      rwa [List.append_nil] at hspelling

end Token

end Abacus
