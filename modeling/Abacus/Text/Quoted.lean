import Abacus.Text.Extender
import Abacus.Text.Printable

namespace Abacus.Text

def byNumber (c : Char) : List Char :=
  ['\\', 'u', '\x7b'] ++ Nat.toDigits 16 c.toNat ++ ['\x7d']

/-- What would not show, or would attach to the character before, is written by number. -/
def escape (quote c : Char) : List Char :=
  if c = '\x00' then ['\\', '0']
  else if c = '\t' then ['\\', 't']
  else if c = '\r' then ['\\', 'r']
  else if c = '\n' then ['\\', 'n']
  else if c = '\\' || c = quote then ['\\', c]
  else if isExtender c || !isPrintable c then byNumber c
  else [c]

def quote (mark : Char) (text : List Char) : String :=
  .ofList (mark :: text.flatMap (escape mark) ++ [mark])

def quoteChar (c : Char) : String := quote '\'' [c]

def quoteString (text : String) : String := quote '"' text.toList

example : quoteChar '\'' = "'\\''" := by decide
example : quoteChar '\x01' = "'\\u\x7b1\x7d'" := by decide +kernel

end Abacus.Text
