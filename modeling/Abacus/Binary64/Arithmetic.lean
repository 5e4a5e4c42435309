import Abacus.Binary64.Rounding

namespace Abacus.Binary64

/-- A sum that is exactly zero is negative only if both terms are. -/
def add : Binary64 → Binary64 → Binary64
  | nan, _ | _, nan => nan
  | infinity s, infinity t => if s = t then infinity s else nan
  | infinity s, finite .. => infinity s
  | finite .., infinity t => infinity t
  | finite s i, finite t j => round (s && t) (signed s i + signed t j)

def sub (x y : Binary64) : Binary64 := x.add y.neg

def mul : Binary64 → Binary64 → Binary64
  | nan, _ | _, nan => nan
  | infinity s, infinity t => infinity (s != t)
  | infinity s, finite t j => if j.val = 0 then nan else infinity (s != t)
  | finite s i, infinity t => if i.val = 0 then nan else infinity (s != t)
  | finite s i, finite t j => round (s != t) (signed s i * signed t j)

def div : Binary64 → Binary64 → Binary64
  | nan, _ | _, nan => nan
  | infinity _, infinity _ => nan
  | infinity s, finite t _ => infinity (s != t)
  | finite s _, infinity t => zero (s != t)
  | finite s i, finite t j =>
    if j.val = 0 then
      if i.val = 0 then nan else infinity (s != t)
    else round (s != t) (signed s i / signed t j)

/-- The integer part, dropping the fraction. -/
def truncate (v : Rat) : Int := if v < 0 then v.ceil else v.floor

/-- The remainder of truncated division. It is exact, and has the sign of the dividend. -/
def rem : Binary64 → Binary64 → Binary64
  | nan, _ | _, nan => nan
  | infinity _, _ => nan
  | finite s i, infinity _ => finite s i
  | finite s i, finite t j =>
    if j.val = 0 then nan
    else
      let a := signed s i
      let b := signed t j
      round s (a - b * truncate (a / b))

/-- The greatest integer that is no greater. -/
def floor : Binary64 → Binary64
  | finite s i => round s (signed s i).floor
  | x => x

def isIntegral : Binary64 → Bool
  | finite s i => (signed s i).den == 1
  | _ => false

instance : Add Binary64 := ⟨add⟩

instance : Sub Binary64 := ⟨sub⟩

instance : Mul Binary64 := ⟨mul⟩

instance : Div Binary64 := ⟨div⟩

instance : Mod Binary64 := ⟨rem⟩

/-- The power of the machine's number library. -/
def raise (x y : Binary64) : Binary64 :=
  .ofBits ((Float.ofBits x.toBits).pow (Float.ofBits y.toBits)).toBits

end Abacus.Binary64
