import Abacus.Address.Basic

namespace Abacus

namespace Address

def hexDigit? (c : Char) : Option Nat :=
  if c.isDigit then some (c.toNat - '0'.toNat)
  else if 'a' ≤ c ∧ c ≤ 'f' then some (c.toNat - 'a'.toNat + 10)
  else if 'A' ≤ c ∧ c ≤ 'F' then some (c.toNat - 'A'.toNat + 10)
  else none

/-- A decimal number below a limit, all of its digits read. -/
def readDecimal (limit : Nat) (text : List Char) : Option (Nat × List Char) :=
  let digits := text.takeWhile Char.isDigit
  let n := Nat.ofDigitChars 10 digits 0
  if digits.isEmpty ∨ limit ≤ n then none else some (n, text.dropWhile Char.isDigit)

/-- A decimal number of one byte, without leading zeros. -/
def readOctet (text : List Char) : Option (UInt8 × List Char) :=
  if text.head? = some '0' ∧ 1 < (text.takeWhile Char.isDigit).length then none
  else (readDecimal 256 text).map fun (n, rest) => (.ofNat n, rest)

/-- A hexadecimal number of one to four digits. -/
def readGroup (text : List Char) : Option (UInt16 × List Char) :=
  let digits := (text.takeWhile fun c => (hexDigit? c).isSome).filterMap hexDigit?
  if digits.isEmpty ∨ 4 < digits.length then none
  else
    some (.ofNat (digits.foldl (fun n digit => 16 * n + digit) 0),
      text.dropWhile fun c => (hexDigit? c).isSome)

def skip? (c : Char) : List Char → Option (List Char)
  | first :: rest => if first = c then some rest else none
  | [] => none

def readIPv4 (text : List Char) : Option (IPv4 × List Char) := do
  let (a, text) ← readOctet text
  let (b, text) ← readOctet (← skip? '.' text)
  let (c, text) ← readOctet (← skip? '.' text)
  let (d, text) ← readOctet (← skip? '.' text)
  return (⟨a, b, c, d⟩, text)

/-- Reads behind a colon, which only the first group does without. -/
def behindColon {α : Type} (isFirst : Bool) (read : List Char → Option (α × List Char))
    (text : List Char) : Option (α × List Char) :=
  if isFirst then read text else (skip? ':' text).bind read

/-- Up to so many groups, whether they end in a short address, and what follows them. -/
def readGroups (isFirst : Bool) : Nat → List Char → List UInt16 × Bool × List Char
  | 0, text => ([], false, text)
  | room + 1, text =>
    match if 0 < room then behindColon isFirst readIPv4 text else none with
    | some (short, rest) => (short.groups, true, rest)
    | none =>
      match behindColon isFirst readGroup text with
      | some (group, rest) =>
        let (groups, endsShort, after) := readGroups false room rest
        (group :: groups, endsShort, after)
      | none => ([], false, text)

def ofGroups? (groups : List UInt16) : Option IPv6 :=
  if h : groups.length = 8 then some ⟨groups, h⟩ else none

/-- Eight groups, or fewer around a `::` that stands for at least one. A short address may only
end the whole. -/
def readIPv6 (text : List Char) : Option (IPv6 × List Char) :=
  let (head, endsShort, afterHead) := readGroups true 8 text
  if head.length = 8 then (ofGroups? head).map (·, afterHead)
  else if endsShort then none
  else do
    let rest ← skip? ':' (← skip? ':' afterHead)
    let (tail, _, afterTail) := readGroups true (7 - head.length) rest
    let host ← ofGroups? (head ++ List.replicate (8 - head.length - tail.length) 0 ++ tail)
    return (host, afterTail)

def readPort (text : List Char) : Option (UInt16 × List Char) := do
  let (port, rest) ← readDecimal 65536 (← skip? ':' text)
  return (.ofNat port, rest)

/-- The scope, zero if none is given. -/
def readScope (text : List Char) : UInt32 × List Char :=
  match (skip? '%' text).bind (readDecimal 4294967296) with
  | some (scope, rest) => (.ofNat scope, rest)
  | none => (0, text)

def readV4 (text : List Char) : Option (Address × List Char) := do
  let (host, rest) ← readIPv4 text
  let (port, rest) ← readPort rest
  return (v4 host port, rest)

def readV6 (text : List Char) : Option (Address × List Char) := do
  let (host, rest) ← readIPv6 (← skip? '[' text)
  let (scope, rest) := readScope rest
  let (port, rest) ← readPort (← skip? ']' rest)
  return (v6 host scope port, rest)

/-- The address that a whole text spells. -/
def ofText? (text : List Char) : Option Address :=
  match (readV4 text).orElse fun _ => readV6 text with
  | some (address, []) => some address
  | _ => none

end Address

end Abacus
