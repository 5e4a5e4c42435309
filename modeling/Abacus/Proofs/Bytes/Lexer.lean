import Abacus.Proofs.Token.Layout

namespace Abacus.Bytes

open Text Token

/-- Why the lexer ends early. Only faults are due to the source. -/
inductive Stop where
  /-- A cut with an end inside of a character or past the source. -/
  | badCut (start stop : Nat)
  /-- A text to convert to a float that is not the text of one. -/
  | badFloat (text : List Char)
  | fault (fault : Fault)
  deriving DecidableEq, Repr

/-- The number nearest to what digits make, with or without a point among them and an exponent behind.
Words for numbers are not read. -/
def readFloat? (text : List Char) : Option Binary64 :=
  let (n, rest) := Numeral.scan text
  if rest = [] ∧ n.whole ++ n.fraction.getD [] ≠ [] then some n.toDecimal.toBinary64 else none

/-- The number that digits make, if it is in the range of integers. -/
def readInteger? (text : List Char) : Option Int64 :=
  let n := Nat.ofDigitChars 10 text 0
  if text ≠ [] ∧ text.all Char.isDigit ∧ n < Numeral.intLimit then some (.ofNat n) else none

def toFloat (text : List Char) : Except Stop Binary64 :=
  match readFloat? text with
  | some x => .ok x
  | none => .error (.badFloat text)

/-- The token that the text of a number stands for. -/
def toToken (start : Nat) (isImaginary isFloat : Bool) (text : List Char) : Except Stop Token :=
  if isImaginary then (toFloat text).map .imaginary
  else if isFloat then (toFloat text).map .float
  else if 1 < Utf8.size text && text.head? == some '0' && text.any (· != '0') then
    .error (.fault (.malformed .leadingZeros start))
  else match readInteger? text with
    | some n => .ok (.int n)
    | none => toFloat text >>= fun x => if x.isFinite then .ok (.float x) else .error (.fault .intTooLarge)

/-- The text of a string and how many bytes it takes up to its closing quote and with it, behind those
before it. -/
def readQuoted (quote : Char) (taken : Nat) : List Char → Option (List Char × Nat)
  | [] => none
  | ['\\'] => none
  | '\\' :: c :: rest =>
    (readQuoted quote (taken + '\\'.utf8Size + c.utf8Size) rest).map fun (text, taken) =>
      (unescape c :: text, taken)
  | c :: rest =>
    if c = quote then some ([], taken + 1)
    else if c = '\n' then none
    else (readQuoted quote (taken + c.utf8Size) rest).map fun (text, taken) => (c :: text, taken)

section Source

variable (source : String)

def bytes : List UInt8 := Utf8.encode source.toList

/-- The byte at a place, taken for a character by itself. -/
def peek (pos : Nat) : Option Char := (bytes source)[pos]?.map Char.ofUInt8

variable {source} in
theorem lt_of_peek {pos : Nat} {c : Char} (h : peek source pos = some c) :
    pos < (bytes source).length := by
  obtain ⟨byte, hbyte, _⟩ := Option.map_eq_some_iff.1 h
  exact (List.getElem?_eq_some_iff.1 hbyte).1

/-- The place behind a byte, if that one comes next. -/
def eat (c : Char) (pos : Nat) : Option Nat := if peek source pos = some c then some (pos + 1) else none

/-- The place behind all bytes of a kind that come next. -/
def skipWhile (p : Char → Bool) (pos : Nat) : Nat :=
  match hbyte : peek source pos with
  | some byte => if p byte then skipWhile p (pos + 1) else pos
  | none => pos
termination_by (bytes source).length - pos
decreasing_by exact Nat.sub_succ_lt_self _ _ (lt_of_peek hbyte)

def eatDigits (pos : Nat) : Nat := skipWhile source Char.isDigit pos

/-- The text between two places, which have to be between characters. -/
def cut (start stop : Nat) : Except Stop (List Char) :=
  if start ≤ stop ∧ String.Pos.Raw.isValid source ⟨start⟩ ∧ String.Pos.Raw.isValid source ⟨stop⟩ then
    .ok (Utf8.decodeLossy (((bytes source).drop start).take (stop - start)))
  else .error (.badCut start stop)

/-- A point and the digits behind it, and whether there is a point. -/
def readFraction (pos : Nat) : Bool × Nat :=
  match eat source '.' pos with
  | some pos => (true, eatDigits source pos)
  | none => (false, pos)

def readMantissa (pos : Nat) : Bool × Nat :=
  match eat source '.' pos with
  | some pos => (true, eatDigits source pos)
  | none => readFraction source (eatDigits source pos)

def isExponentMark (c : Char) : Bool := c == 'e' || c == 'E'

def isSign (c : Char) : Bool := c == '+' || c == '-'

def skipSign (pos : Nat) : Nat := if (peek source pos).any isSign then pos + 1 else pos

/-- An exponent, and whether there is one. Without digits there is none, and nothing is taken. -/
def readExponent (pos : Nat) : Bool × Nat :=
  if (peek source pos).any isExponentMark then
    let unsigned := skipSign source (pos + 1)
    let stop := eatDigits source unsigned
    if unsigned < stop then (true, stop) else (false, pos)
  else (false, pos)

def readImaginaryMark (pos : Nat) : Bool × Nat :=
  match eat source 'j' pos with
  | some pos => (true, pos)
  | none =>
    match eat source 'J' pos with
    | some pos => (true, pos)
    | none => (false, pos)

/-- A number without its imaginary mark, and whether it is the text of a float. -/
def readNumeral (pos : Nat) : Bool × Nat :=
  let (hasPoint, pos) := readMantissa source pos
  let (hasExponent, pos) := readExponent source pos
  (hasPoint || hasExponent, pos)

def readNumber (start : Nat) : Except Stop (Token × Nat) :=
  let (isFloat, pos) := readNumeral source start
  cut source start pos >>= fun text =>
    let (isImaginary, pos) := readImaginaryMark source pos
    if (peek source pos).any isNameChar then .error (.fault (.malformed .invalidDecimalLiteral start))
    else (toToken start isImaginary isFloat text).map fun token => (token, pos)

def readName (start : Nat) : Except Stop (Token × Nat) :=
  let stop := skipWhile source isNameChar start
  (cut source start stop).map fun text => (ofName (.ofList text), stop)

/-- A string that starts before its quote, which is passed. -/
def readString (quote : Char) (start : Nat) : Except Stop (Token × Nat) :=
  cut source (start + 1) (bytes source).length >>= fun rest =>
    match readQuoted quote 0 rest with
    | some (text, taken) => .ok (.str (.ofList text), start + 1 + taken)
    | none => .error (.fault (.malformed .unterminatedString start))

/-- The longer symbol, if its last byte comes next, or the shorter one. -/
def readLonger (c : Char) (longer shorter : Symbol) (pos : Nat) : Symbol × Nat :=
  match eat source c pos with
  | some pos => (longer, pos)
  | none => (shorter, pos)

/-- The symbol that a byte starts, which is passed. -/
def readSymbol (c : Char) (pos : Nat) : Option (Symbol × Nat) :=
  match c with
  | '+' => some (.plus, pos)
  | '-' => some (.minus, pos)
  | '*' => some (readLonger source '*' .doubleStar .star pos)
  | '/' => some (readLonger source '/' .doubleSlash .slash pos)
  | '%' => some (.percent, pos)
  | '~' => some (.tilde, pos)
  | '&' => some (.ampersand, pos)
  | '|' => some (.pipe, pos)
  | '^' => some (.caret, pos)
  | '<' =>
    match eat source '<' pos with
    | some pos => some (.shiftLeft, pos)
    | none => some (readLonger source '=' .lessEqual .less pos)
  | '>' =>
    match eat source '>' pos with
    | some pos => some (.shiftRight, pos)
    | none => some (readLonger source '=' .greaterEqual .greater pos)
  | '=' => (eat source '=' pos).map fun pos => (.equal, pos)
  | '!' => (eat source '=' pos).map fun pos => (.notEqual, pos)
  | ',' => some (.comma, pos)
  | '.' =>
    if peek source pos = some '.' ∧ peek source (pos + 1) = some '.' then some (.ellipsis, pos + 2)
    else some (.dot, pos)
  | _ => none

/-- The token that starts at a place. Only for a byte that starts none the whole character is cut out. -/
def readToken (start : Nat) : Except Stop (Token × Nat) :=
  match peek source start with
  | none => .ok (.eof, start)
  | some c =>
    if c.isDigit || (c == '.' && (peek source (start + 1)).any Char.isDigit) then readNumber source start
    else if isNameStart c then readName source start
    else if c = '"' || c = '\'' then readString source c start
    else match Bracket.ofChar? c with
      | some bracket => .ok (bracket, start + 1)
      | none => match readSymbol source c (start + 1) with
        | some (sign, pos) => .ok (.symbol sign, pos)
        | none =>
          cut source start (bytes source).length >>= fun rest =>
            .error (.fault (.malformed (.invalidCharacter (rest.head?.getD '\ufffd')) start))

end Source

section Progress

variable {source : String} {c : Char} {p : Char → Bool} {pos start : Nat}

theorem le_skipWhile : pos ≤ skipWhile source p pos := by
  fun_induction skipWhile source p pos with
  | case1 pos byte hbyte hp ih => exact Nat.le_of_succ_le ih
  | case2 => exact Nat.le_refl _
  | case3 => exact Nat.le_refl _

theorem lt_skipWhile (h : peek source pos = some c) (hp : p c) : pos < skipWhile source p pos := by
  rw [skipWhile]
  split
  · rename_i byte hbyte
    rw [h] at hbyte
    cases hbyte
    rw [if_pos hp]
    exact le_skipWhile
  · rename_i hbyte
    rw [h] at hbyte
    cases hbyte

theorem eat_eq_some {stop : Nat} (h : eat source c pos = some stop) :
    peek source pos = some c ∧ stop = pos + 1 := by
  unfold eat at h
  split at h
  · cases h
    exact ⟨‹_›, rfl⟩
  · cases h

theorem le_readFraction : pos ≤ (readFraction source pos).2 := by
  unfold readFraction
  split
  · rename_i stop heat
    obtain ⟨_, rfl⟩ := eat_eq_some heat
    exact Nat.le_of_succ_le le_skipWhile
  · exact Nat.le_refl _

theorem lt_readMantissa (h : peek source pos = some c) (hc : c.isDigit ∨ c = '.') :
    pos < (readMantissa source pos).2 := by
  unfold readMantissa
  split
  · rename_i stop heat
    obtain ⟨_, rfl⟩ := eat_eq_some heat
    exact le_skipWhile
  · rename_i heat
    rcases hc with hdigit | rfl
    · exact Nat.lt_of_lt_of_le (lt_skipWhile h hdigit) le_readFraction
    · rw [eat, if_pos h] at heat
      cases heat

theorem le_skipSign : pos ≤ skipSign source pos := by
  unfold skipSign
  split
  · exact Nat.le_succ _
  · exact Nat.le_refl _

theorem le_readExponent : pos ≤ (readExponent source pos).2 := by
  have hsign : pos + 1 ≤ skipSign source (pos + 1) := le_skipSign
  unfold readExponent
  split
  · dsimp only
    split
    · dsimp only
      omega
    · exact Nat.le_refl _
  · exact Nat.le_refl _

theorem le_readImaginaryMark : pos ≤ (readImaginaryMark source pos).2 := by
  unfold readImaginaryMark
  split
  · rename_i stop heat
    obtain ⟨_, rfl⟩ := eat_eq_some heat
    exact Nat.le_succ _
  · split
    · rename_i stop heat
      obtain ⟨_, rfl⟩ := eat_eq_some heat
      exact Nat.le_succ _
    · exact Nat.le_refl _

variable {found : Token × Nat}

theorem lt_of_readNumber (hread : readNumber source start = .ok found) (h : peek source start = some c)
    (hc : c.isDigit ∨ c = '.') : start < found.2 := by
  unfold readNumber at hread
  dsimp only at hread
  cases hcut : cut source start (readNumeral source start).2 with
  | error stop =>
    rw [hcut] at hread
    cases hread
  | ok text =>
    rw [hcut] at hread
    dsimp only [bind, Except.bind] at hread
    split at hread
    · cases hread
    · obtain ⟨token, _, rfl⟩ := exists_of_map_eq_ok hread
      exact Nat.lt_of_lt_of_le (lt_readMantissa h hc) (Nat.le_trans le_readExponent le_readImaginaryMark)

theorem lt_of_readName (hread : readName source start = .ok found) (h : peek source start = some c)
    (hc : isNameStart c) : start < found.2 := by
  unfold readName at hread
  obtain ⟨text, _, rfl⟩ := exists_of_map_eq_ok hread
  exact lt_skipWhile h (isNameChar_of_isNameStart hc)

theorem lt_of_readString (hread : readString source c start = .ok found) : start < found.2 := by
  unfold readString at hread
  cases hcut : cut source (start + 1) (bytes source).length with
  | error stop =>
    rw [hcut] at hread
    cases hread
  | ok rest =>
    rw [hcut] at hread
    dsimp only [bind, Except.bind] at hread
    split at hread
    · cases hread
      omega
    · cases hread

theorem le_of_readLonger {longer shorter : Symbol} :
    pos ≤ (readLonger source c longer shorter pos).2 := by
  unfold readLonger
  split
  · rename_i stop heat
    obtain ⟨_, rfl⟩ := eat_eq_some heat
    exact Nat.le_succ _
  · exact Nat.le_refl _

theorem le_of_readSymbol {sign : Symbol} {stop : Nat} (h : readSymbol source c pos = some (sign, stop)) :
    pos ≤ stop := by
  have hlonger (c : Char) (longer shorter : Symbol) : pos ≤ (readLonger source c longer shorter pos).2 :=
    le_of_readLonger
  unfold readSymbol at h
  grind [eat]

/-- No token but the end is read without taking a byte. -/
theorem lt_of_readToken (hread : readToken source start = .ok found) (hne : found.1 ≠ .eof) :
    start < found.2 ∧ start < (bytes source).length := by
  unfold readToken at hread
  split at hread
  · cases hread
    exact absurd rfl hne
  · rename_i c hpeek
    refine ⟨?_, lt_of_peek hpeek⟩
    split at hread
    · rename_i hnumber
      apply lt_of_readNumber hread hpeek
      rcases Bool.or_eq_true_iff.1 hnumber with hdigit | hpoint
      · exact .inl hdigit
      · exact .inr (beq_iff_eq.1 (Bool.and_eq_true_iff.1 hpoint).1)
    split at hread
    · exact lt_of_readName hread hpeek ‹_›
    split at hread
    · exact lt_of_readString hread
    split at hread
    · cases hread
      exact Nat.lt_succ_self _
    split at hread
    · rename_i sign pos hsign
      cases hread
      exact le_of_readSymbol hsign
    · cases hcut : cut source start (bytes source).length with
      | error stop =>
        rw [hcut] at hread
        cases hread
      | ok rest =>
        rw [hcut] at hread
        cases hread

end Progress

/-- The lexemes from a place on, inside the brackets opened before it. -/
def lexemes (source : String) (pos : Nat) (opened : List Bracket) : Except Stop (List Lexeme) :=
  let start := skipWhile source Lexeme.isSpacing pos
  match _hread : readToken source start with
  | .error stop => .error stop
  | .ok (token, after) =>
    if _hend : token = .eof then
      match opened with
      | [] => .ok [⟨.eof, start⟩]
      | innermost :: _ => .error (.fault (.malformed (.neverClosed innermost) start))
    else match Lexeme.matchBrackets start opened token with
      | .error fault => .error (.fault fault)
      | .ok stillOpened => (lexemes source after stillOpened).map (⟨token, start⟩ :: ·)
termination_by (bytes source).length - pos
decreasing_by
  have hpos : pos ≤ skipWhile source Lexeme.isSpacing pos := le_skipWhile
  obtain ⟨hlt, hlength⟩ := lt_of_readToken ‹_› ‹_›
  dsimp only at hlt
  omega

end Abacus.Bytes
