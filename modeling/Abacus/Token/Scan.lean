import Abacus.Text.Lead
import Abacus.Token.Numeral

namespace Abacus

def Keyword.ofText? : String → Option Keyword
  | "and" => some .and
  | "or" => some .or
  | "not" => some .not
  | "True" => some .true
  | "False" => some .false
  | "None" => some .none
  | _ => .none

/-- The symbols in an order in which none comes behind one that its spelling starts with. -/
def Symbol.longestFirst : List Symbol := [
  ellipsis, doubleStar, doubleSlash, shiftLeft, lessEqual, shiftRight, greaterEqual, equal, notEqual,
  plus, minus, star, slash, percent, tilde, ampersand, pipe, caret, less, greater, comma, dot]

/-- The longest symbol at the front of a text, and what follows it. -/
def Symbol.scan? (text : List Char) : Option (Symbol × List Char) :=
  longestFirst.findSome? fun sign => (Text.after? sign.spelling text).map (sign, ·)

/-- The bracket that a character is, opening or closing. -/
def Bracket.ofChar? : Char → Option Token
  | '(' => some (.opening round)
  | '[' => some (.opening square)
  | ')' => some (.closing round)
  | ']' => some (.closing square)
  | _ => none

theorem Symbol.eq_spelling_append {text rest : List Char} {sign : Symbol}
    (h : Symbol.scan? text = some (sign, rest)) : text = sign.spelling ++ rest := by
  obtain ⟨found, _, hfound⟩ := List.exists_of_findSome?_eq_some h
  obtain ⟨after, hafter, heq⟩ := Option.map_eq_some_iff.1 hfound
  obtain ⟨rfl, rfl⟩ := Prod.mk.inj heq
  exact Text.after?_eq_some_iff.1 hafter

theorem Symbol.length_scan?_lt {text rest : List Char} {sign : Symbol}
    (h : Symbol.scan? text = some (sign, rest)) : rest.length < text.length := by
  have hpos : 0 < sign.spelling.length := by cases sign <;> exact Nat.zero_lt_succ _
  rw [Symbol.eq_spelling_append h, List.length_append]
  omega

namespace Token

def isNameStart (c : Char) : Bool := c.isAlpha || c == '_'

def isNameChar (c : Char) : Bool := c.isAlphanum || c == '_'

def ofName (text : String) : Token :=
  match Keyword.ofText? text with
  | some word => keyword word
  | none => name text

/-- What a character means after a backslash: `n` a newline, `t` a tab, any other itself. -/
def unescape (c : Char) : Char := if c = 'n' then '\n' else if c = 't' then '\t' else c

/-- The text up to the closing quote, and what follows the quote. A newline may only stand in the
text behind a backslash. -/
def scanString (quote : Char) : List Char → Option (List Char × List Char)
  | [] => none
  | ['\\'] => none
  | '\\' :: c :: rest =>
    (scanString quote rest).map fun (text, after) => (unescape c :: text, after)
  | c :: rest =>
    if c = quote then some ([], rest)
    else if c = '\n' then none
    else (scanString quote rest).map fun (text, after) => (c :: text, after)

/-- The mark of an imaginary literal, if it comes next. -/
def scanImaginaryMark : List Char → Bool × List Char
  | 'j' :: rest => (true, rest)
  | 'J' :: rest => (true, rest)
  | rest => (false, rest)

/-- A number must not run into a name or into further digits. -/
def scanNumber (offset : Nat) (text : List Char) : Except Fault (Token × List Char) :=
  let (numeral, afterNumeral) := Numeral.scan text
  let (isImaginary, rest) := scanImaginaryMark afterNumeral
  if rest.head?.any isNameChar then .error (.malformed .invalidDecimalLiteral offset)
  else (numeral.toToken offset isImaginary).map fun token => (token, rest)

def startsNumber : List Char → Bool
  | '.' :: c :: _ => c.isDigit
  | c :: _ => c.isDigit
  | [] => false

/-- The token at the front of a text, and what follows it. At the end of the text that is `eof`. -/
def scan (offset : Nat) : List Char → Except Fault (Token × List Char)
  | [] => .ok (eof, [])
  | c :: rest =>
    if startsNumber (c :: rest) then scanNumber offset (c :: rest)
    else if isNameStart c then
      .ok (ofName (.ofList ((c :: rest).takeWhile isNameChar)), (c :: rest).dropWhile isNameChar)
    else if c = '"' || c = '\'' then
      match scanString c rest with
      | some (text, after) => .ok (str (.ofList text), after)
      | none => .error (.malformed .unterminatedString offset)
    else match Bracket.ofChar? c with
      | some bracket => .ok (bracket, rest)
      | none => match Symbol.scan? (c :: rest) with
        | some (sign, after) => .ok (symbol sign, after)
        | none => .error (.malformed (.invalidCharacter c) offset)

theorem length_scanString_lt {quote : Char} {text : List Char} {found : List Char × List Char}
    (h : scanString quote text = some found) : found.2.length < text.length := by
  fun_induction scanString quote text generalizing found with
  | case1 => simp at h
  | case2 => simp at h
  | case3 c rest ih =>
    obtain ⟨inner, hinner, rfl⟩ := Option.map_eq_some_iff.1 h
    have := ih hinner
    simp only [List.length_cons]
    omega
  | case4 rest =>
    simp only [Option.some.injEq] at h
    subst h
    simp
  | case5 => simp at h
  | case6 c rest _ _ _ _ ih =>
    obtain ⟨inner, hinner, rfl⟩ := Option.map_eq_some_iff.1 h
    have := ih hinner
    simp only [List.length_cons]
    omega

theorem length_scanImaginaryMark_le (text : List Char) :
    (scanImaginaryMark text).2.length ≤ text.length := by
  unfold scanImaginaryMark
  split <;> simp

theorem length_dropWhile_lt {p : Char → Bool} {c : Char} {rest : List Char} (h : p c) :
    ((c :: rest).dropWhile p).length < (c :: rest).length := by
  rw [List.dropWhile_cons_of_pos h]
  exact Nat.lt_succ_of_le (List.dropWhile_sublist _).length_le

theorem length_afterFraction_lt {text : List Char} (h : startsNumber text) :
    (Numeral.scanFraction (Numeral.afterDigits text)).2.length < text.length := by
  unfold startsNumber at h
  split at h
  · rename_i c rest
    simpa [Numeral.afterDigits, Numeral.scanFraction] using
      Nat.lt_succ_of_le (Numeral.length_afterDigits_le (c :: rest))
  · exact Nat.lt_of_le_of_lt (Numeral.length_scanFraction_le _) (length_dropWhile_lt h)
  · simp at h

theorem length_scanNumber_lt {offset : Nat} {text : List Char} {found : Token × List Char}
    (hstart : startsNumber text) (h : scanNumber offset text = .ok found) :
    found.2.length < text.length := by
  unfold scanNumber at h
  dsimp only at h
  split at h
  · simp at h
  · have hmark := length_scanImaginaryMark_le (Numeral.scan text).2
    have hscan := Numeral.length_scan_le text
    have hfraction := length_afterFraction_lt hstart
    cases htoken : (Numeral.scan text).1.toToken offset (scanImaginaryMark (Numeral.scan text).2).1 with
    | error fault => simp [htoken, Except.map] at h
    | ok token =>
      simp only [htoken, Except.map, Except.ok.injEq] at h
      subst h
      dsimp only
      omega

/-- A token takes at least one character, unless the text is at its end. -/
theorem length_scan_lt {offset : Nat} {c : Char} {text : List Char} {found : Token × List Char}
    (h : scan offset (c :: text) = .ok found) : found.2.length < (c :: text).length := by
  simp only [scan] at h
  split at h
  · exact length_scanNumber_lt ‹_› h
  · split at h
    · rename_i hname
      simp only [Except.ok.injEq] at h
      subst h
      refine length_dropWhile_lt ?_
      simp only [isNameStart, isNameChar, Char.isAlphanum, Bool.or_eq_true] at hname ⊢
      rcases hname with hname | hname <;> simp [hname]
    · split at h
      · split at h
        · rename_i hstring
          simp only [Except.ok.injEq] at h
          subst h
          exact Nat.lt_succ_of_lt (length_scanString_lt hstring)
        · simp at h
      · split at h
        · simp only [Except.ok.injEq] at h
          subst h
          exact Nat.lt_succ_self _
        · split at h
          · rename_i hsymbol
            simp only [Except.ok.injEq] at h
            subst h
            exact Symbol.length_scan?_lt hsymbol
          · simp at h

end Token

end Abacus
