namespace Abacus

structure IPv4 where
  a : UInt8
  b : UInt8
  c : UInt8
  d : UInt8
  deriving DecidableEq, Repr

structure IPv6 where
  groups : List UInt16
  length_groups : groups.length = 8
  deriving DecidableEq, Repr

/-- The two groups that stand for a short address at the end of a long one. -/
def IPv4.groups (host : IPv4) : List UInt16 :=
  [host.a.toUInt16 * 256 + host.b.toUInt16, host.c.toUInt16 * 256 + host.d.toUInt16]

/-- A scope of zero is no scope. -/
inductive Address where
  | v4 (host : IPv4) (port : UInt16)
  | v6 (host : IPv6) (scope : UInt32) (port : UInt16)
  deriving DecidableEq, Repr

def Address.port : Address → UInt16
  | v4 _ port => port
  | v6 _ _ port => port

def Address.isV6 : Address → Bool
  | v4 .. => false
  | v6 .. => true

end Abacus
