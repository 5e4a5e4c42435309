import Abacus.Address.Basic

namespace Abacus

namespace IPv4

def text (host : IPv4) : List Char :=
  Nat.toDigits 10 host.a.toNat ++ '.' :: Nat.toDigits 10 host.b.toNat ++
    '.' :: Nat.toDigits 10 host.c.toNat ++ '.' :: Nat.toDigits 10 host.d.toNat

end IPv4

namespace IPv6

/-- The short address that a long one stands for, behind `::ffff:`. -/
def mapped? : List UInt16 → Option IPv4
  | [0, 0, 0, 0, 0, 0xffff, high, low] =>
    some ⟨(high / 256).toUInt8, high.toUInt8, (low / 256).toUInt8, low.toUInt8⟩
  | _ => none

/-- How many zero groups stand at the front. -/
def zeroRun (groups : List UInt16) : Nat := (groups.takeWhile (· == 0)).length

/-- Where the first of the longest runs of zero groups starts, and how long it is. -/
def longestRun : List UInt16 → Nat × Nat
  | [] => (0, 0)
  | group :: groups =>
    let here := zeroRun (group :: groups)
    let (start, length) := longestRun groups
    if length ≤ here then (0, here) else (start + 1, length)

def groupText (group : UInt16) : List Char := Nat.toDigits 16 group.toNat

def joined : List UInt16 → List Char
  | [] => []
  | [group] => groupText group
  | group :: groups => groupText group ++ ':' :: joined groups

/-- The longest run is written as `::`, if it has at least two groups. -/
def text (host : IPv6) : List Char :=
  match mapped? host.groups with
  | some short => ':' :: ':' :: 'f' :: 'f' :: 'f' :: 'f' :: ':' :: short.text
  | none =>
    let (start, length) := longestRun host.groups
    if 1 < length then
      joined (host.groups.take start) ++ ':' :: ':' :: joined (host.groups.drop (start + length))
    else joined host.groups

end IPv6

namespace Address

def hostText : Address → String
  | v4 host _ => .ofList host.text
  | v6 host _ _ => .ofList host.text

def chars : Address → List Char
  | v4 host port => host.text ++ ':' :: Nat.toDigits 10 port.toNat
  | v6 host scope port =>
    '[' :: host.text ++ (if scope = 0 then [] else '%' :: Nat.toDigits 10 scope.toNat) ++
      ']' :: ':' :: Nat.toDigits 10 port.toNat

def text (address : Address) : String := .ofList address.chars

end Address

end Abacus
