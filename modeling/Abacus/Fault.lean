import Abacus.Token.Basic

namespace Abacus

/-- How a text fails to be an expression. -/
inductive Malformation where
  | invalidCharacter (found : Char)
  | invalidDecimalLiteral
  | leadingZeros
  | unterminatedString
  | tooManyBrackets
  | mismatchedBracket (closing opening : Bracket)
  | unmatchedBracket (closing : Bracket)
  | neverClosed (opening : Bracket)
  | unexpectedToken (found : Token)
  | unexpectedEnd
  | nestedTooDeeply
  deriving DecidableEq, Repr

def Malformation.message : Malformation → String
  | invalidCharacter found => "invalid character " ++ Text.quoteChar found
  | invalidDecimalLiteral => "invalid decimal literal"
  | leadingZeros => "leading zeros in decimal integer literals are not permitted"
  | unterminatedString => "unterminated string literal"
  | tooManyBrackets => "too many nested parentheses"
  | mismatchedBracket closing opening =>
    "closing parenthesis '" ++ .singleton closing.closer ++
      "' does not match opening parenthesis '" ++ .singleton opening.opener ++ "'"
  | unmatchedBracket closing => "unmatched '" ++ .singleton closing.closer ++ "'"
  | neverClosed opening => "'" ++ .singleton opening.opener ++ "' was never closed"
  | unexpectedToken found => "unexpected token '" ++ found.text ++ "'"
  | unexpectedEnd => "unexpected end of expression"
  | nestedTooDeeply => "expression nested too deeply"

/-- The parts of an expression that have no number as their value. -/
inductive Unsupported where
  | unaryOperator
  | binaryOperator
  | element
  deriving DecidableEq, Repr

def Unsupported.text : Unsupported → String
  | unaryOperator => "unary operator"
  | binaryOperator => "binary operator"
  | element => "expression element"

/-- Why reading or reducing an expression stops. Offsets count bytes from the start of the source. -/
inductive Fault where
  | malformed (cause : Malformation) (offset : Nat)
  | divisionByZero
  | moduloByZero
  | floorDivisionByZero
  | zeroToNegativePower
  | complexResult
  | overflow
  | intTooLarge
  | unsupported (part : Unsupported)
  deriving DecidableEq, Repr

def Fault.message : Fault → String
  | malformed cause offset =>
    "invalid syntax: " ++ cause.message ++ " (at offset " ++ offset.repr ++ ")"
  | divisionByZero => "float division by zero"
  | moduloByZero => "float modulo by zero"
  | floorDivisionByZero => "float floor division by zero"
  | zeroToNegativePower => "0.0 cannot be raised to a negative power"
  | complexResult => "negative number cannot be raised to a fractional power"
  | overflow => "numerical result out of range"
  | intTooLarge => "int too large to convert to float"
  | unsupported part => "unsupported expression element: " ++ part.text

/-- Why a calculation has no result. -/
inductive Failure where
  | invalidCharacter (found : Char)
  | unbalancedParentheses (opened closed : Nat)
  | invalidStructure
  | notANumber
  | evaluation (fault : Fault)
  deriving DecidableEq, Repr

def Failure.message : Failure → String
  | invalidCharacter found => "Invalid characters in expression: " ++ Text.quoteChar found
  | unbalancedParentheses opened closed =>
    "Unbalanced parentheses: " ++ opened.repr ++ " '(' vs " ++ closed.repr ++ " ')'"
  | invalidStructure => "Evaluation error: Invalid expression structure"
  | notANumber => "Evaluation error: Expression did not evaluate to a number"
  | evaluation fault => "Evaluation error: " ++ fault.message

end Abacus
