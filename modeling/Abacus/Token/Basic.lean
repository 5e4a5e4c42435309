import Abacus.Decimal.Notation
import Abacus.Text.Quoted

namespace Abacus

inductive Bracket where
  | round
  | square
  deriving DecidableEq, Repr

def Bracket.opener : Bracket → Char
  | round => '('
  | square => '['

def Bracket.closer : Bracket → Char
  | round => ')'
  | square => ']'

inductive Keyword where
  | and
  | or
  | not
  | true
  | false
  | none
  deriving DecidableEq, Repr

def Keyword.text : Keyword → String
  | .and => "and"
  | .or => "or"
  | .not => "not"
  | .true => "True"
  | .false => "False"
  | .none => "None"

inductive Symbol where
  | plus
  | minus
  | star
  | doubleStar
  | slash
  | doubleSlash
  | percent
  | tilde
  | ampersand
  | pipe
  | caret
  | shiftLeft
  | shiftRight
  | equal
  | notEqual
  | less
  | lessEqual
  | greater
  | greaterEqual
  | comma
  | dot
  | ellipsis
  deriving DecidableEq, Repr

def Symbol.spelling : Symbol → List Char
  | plus => ['+']
  | minus => ['-']
  | star => ['*']
  | doubleStar => ['*', '*']
  | slash => ['/']
  | doubleSlash => ['/', '/']
  | percent => ['%']
  | tilde => ['~']
  | ampersand => ['&']
  | pipe => ['|']
  | caret => ['^']
  | shiftLeft => ['<', '<']
  | shiftRight => ['>', '>']
  | equal => ['=', '=']
  | notEqual => ['!', '=']
  | less => ['<']
  | lessEqual => ['<', '=']
  | greater => ['>']
  | greaterEqual => ['>', '=']
  | comma => [',']
  | dot => ['.']
  | ellipsis => ['.', '.', '.']

def Symbol.text (sign : Symbol) : String := .ofList sign.spelling

/-- `eof` stands once, after the last token of a text. -/
inductive Token where
  | int (n : Int64)
  | float (x : Binary64)
  | imaginary (x : Binary64)
  | str (text : String)
  | name (text : String)
  | keyword (word : Keyword)
  | symbol (sign : Symbol)
  | opening (bracket : Bracket)
  | closing (bracket : Bracket)
  | eof
  deriving DecidableEq, Repr

def Token.text : Token → String
  | int n => n.toInt.repr
  | float x => x.literalText
  | imaginary x => x.literalText ++ "j"
  | str text => Text.quoteString text
  | name text => text
  | keyword word => word.text
  | symbol sign => sign.text
  | opening bracket => .singleton bracket.opener
  | closing bracket => .singleton bracket.closer
  | eof => "<EOF>"

end Abacus
