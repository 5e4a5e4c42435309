import Abacus.Text.Utf8
import Abacus.Token.Scan

namespace Abacus

structure Lexeme where
  token : Token
  offset : Nat
  deriving DecidableEq, Repr

namespace Lexeme

/-- The characters between tokens. -/
def isSpacing (c : Char) : Bool :=
  c == ' ' || c == '\t' || c == '\x0c' || c == '\r' || c == '\n'

/-- How many brackets may be open at once. -/
def maxOpen : Nat := 100

/-- The open brackets after a token, innermost first. -/
def matchBrackets (offset : Nat) (opened : List Bracket) : Token → Except Fault (List Bracket)
  | .opening bracket =>
    if maxOpen ≤ opened.length then .error (.malformed .tooManyBrackets offset)
    else .ok (bracket :: opened)
  | .closing bracket =>
    match opened with
    | [] => .error (.malformed (.unmatchedBracket bracket) offset)
    | innermost :: others =>
      if innermost = bracket then .ok others
      else .error (.malformed (.mismatchedBracket bracket innermost) offset)
  | _ => .ok opened

/-- The lexemes of a text that starts at `offset`, inside the brackets opened before it. -/
def listFrom (offset : Nat) (opened : List Bracket) (text : List Char) :
    Except Fault (List Lexeme) :=
  let start := offset + Text.Utf8.size (text.takeWhile isSpacing)
  match htext : text.dropWhile isSpacing with
  | [] =>
    match opened with
    | [] => .ok [⟨.eof, start⟩]
    | innermost :: _ => .error (.malformed (.neverClosed innermost) start)
  | c :: tail =>
    match hscan : Token.scan start (c :: tail) with
    | .error fault => .error fault
    | .ok (token, rest) =>
      match matchBrackets start opened token with
      | .error fault => .error fault
      | .ok stillOpened =>
        have : rest.length < text.length := by
          have hspacing := (List.dropWhile_sublist (l := text) isSpacing).length_le
          rw [htext] at hspacing
          exact Nat.lt_of_lt_of_le (Token.length_scan_lt hscan) hspacing
        let stop := start + (Text.Utf8.size (c :: tail) - Text.Utf8.size rest)
        (listFrom stop stillOpened rest).map (⟨token, start⟩ :: ·)
termination_by text.length
decreasing_by exact this

/-- The lexemes of a text, with `eof` as the last. -/
def list (source : String) : Except Fault (List Lexeme) := listFrom 0 [] source.toList

end Lexeme

end Abacus
