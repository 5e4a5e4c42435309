import Abacus.Binary64.Basic

namespace Abacus

/-- What an event tells beside its message. -/
inductive Event.Value where
  | text (text : String)
  | count (n : Nat)
  | number (x : Binary64)
  deriving DecidableEq, Repr

/-- A message and named values, in the order in which they are logged. -/
structure Event where
  message : String
  fields : List (String × Event.Value)
  deriving DecidableEq, Repr

/-- A computation that reports events on its way, in order. A failure keeps the events before it. -/
structure Traced (ε α : Type) where
  events : List Event
  outcome : Except ε α

namespace Traced

variable {ε α β : Type}

protected def pure (a : α) : Traced ε α := ⟨[], .ok a⟩

protected def bind (x : Traced ε α) (f : α → Traced ε β) : Traced ε β :=
  match x.outcome with
  | .ok a => ⟨x.events ++ (f a).events, (f a).outcome⟩
  | .error e => ⟨x.events, .error e⟩

instance : Monad (Traced ε) where
  pure := Traced.pure
  bind := Traced.bind

/-- A computation that reports nothing. -/
def silent (outcome : Except ε α) : Traced ε α := ⟨[], outcome⟩

def emit (event : Event) : Traced ε Unit := ⟨[event], .ok ()⟩

/-- Reports an event and fails. -/
def refuse (event : Event) (e : ε) : Traced ε α := ⟨[event], .error e⟩

end Traced

end Abacus
