import Abacus.Event
import Abacus.Fault

namespace Abacus

/-- White space, and the four information separators. -/
def isSeparator (c : Char) : Bool :=
  Text.isBlank c || (0x1c ≤ c.toNat && c.toNat ≤ 0x1f)

def inAlphabet (c : Char) : Bool :=
  c.isDigit || ['+', '-', '*', '/', '(', ')', '.'].contains c

/-- The characters of a text that are no separators, which are dropped even inside a number. -/
def significant (raw : String) : List Char := raw.toList.filter fun c => !isSeparator c

/-- Cleaning, with what it reports. A foreign character outweighs a wrong number of parentheses.
Whether these nest is left to the parser. -/
def cleaning (raw : String) : Traced Failure String :=
  let kept := significant raw
  match kept.find? fun c => !inAlphabet c with
  | some found =>
    .refuse ⟨"rejecting expression with disallowed character", [("found", .text (.singleton found))]⟩
      (.invalidCharacter found)
  | none =>
    let opened := kept.count '('
    let closed := kept.count ')'
    if opened = closed then .pure (.ofList kept)
    else
      .refuse ⟨"rejecting expression with unbalanced parentheses",
        [("open", .count opened), ("close", .count closed)]⟩ (.unbalancedParentheses opened closed)

def clean (raw : String) : Except Failure String := (cleaning raw).outcome

end Abacus
