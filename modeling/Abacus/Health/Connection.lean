import Abacus.Health.Reply
import Abacus.Text.Utf8

namespace Abacus.Health

inductive Ending where
  | answered (reply : Reply)
  /-- A line of the head is not UTF-8. -/
  | invalidData
  /-- The client neither completes the head nor ends the connection. -/
  | timedOut
  deriving DecidableEq, Repr

namespace Ending

/-- The most bytes of a head that are read. -/
def maxHead : Nat := 8192

def newline : UInt8 := 10

/-- The bytes up to the first newline, with it, and the bytes behind it, if there is a newline. -/
def splitLine? : List UInt8 → Option (List UInt8 × List UInt8)
  | [] => none
  | byte :: bytes =>
    if byte = newline then some ([byte], bytes)
    else (splitLine? bytes).map fun (line, rest) => (byte :: line, rest)

theorem length_splitLine?_lt {bytes : List UInt8} {found : List UInt8 × List UInt8}
    (h : splitLine? bytes = some found) : found.2.length < bytes.length := by
  fun_induction splitLine? bytes generalizing found with
  | case1 => simp at h
  | case2 bytes =>
    simp only [Option.some.injEq] at h
    subst h
    simp
  | case3 byte bytes _ ih =>
    obtain ⟨inner, hinner, rfl⟩ := Option.map_eq_some_iff.1 h
    have := ih hinner
    simp only [List.length_cons]
    omega

def isBlankLine (line : List UInt8) : Bool := line == [13, newline] || line == [newline]

/-- White space at the end of a request line does not count. -/
def answer (request : List Char) : Ending := answered (.ofRequestLine (Text.trimRight request))

/-- What a head leads to. Only the request line decides the reply, and it is `none` until it is read, but
every line must be UTF-8. `ended` says whether the bytes are all there will be; if so, what stands behind
the last newline is a line as well. -/
def ofHead (ended : Bool) (request : Option (List Char)) (bytes : List UInt8) : Ending :=
  match h : splitLine? bytes with
  | some (line, rest) =>
    have := length_splitLine?_lt h
    match Text.Utf8.decode? line, request with
    | none, _ => invalidData
    | some text, none => ofHead ended (some text) rest
    | some _, some request =>
      if isBlankLine line then answer request else ofHead ended (some request) rest
  | none =>
    if ended then
      match Text.Utf8.decode? bytes with
      | none => invalidData
      | some text => answer (request.getD text)
    else timedOut
termination_by bytes.length
decreasing_by all_goals exact this

/-- How a connection ends on which the client sends `data` and then closes its side, or holds it
open. Once the limit on the head is reached that makes no difference. -/
def ofData (data : List UInt8) (hold : Bool) : Ending :=
  ofHead (!hold || maxHead ≤ data.length) none (data.take maxHead)

/-- What the client receives. -/
def received : Ending → String
  | answered reply => reply.encode
  | invalidData | timedOut => ""

end Ending

/-- What clients receive that come one after another and close their side after sending. A
connection that fails does not stop the endpoint. -/
def replies (requests : List (List UInt8)) : List String :=
  requests.map fun data => (Ending.ofData data false).received

end Abacus.Health
