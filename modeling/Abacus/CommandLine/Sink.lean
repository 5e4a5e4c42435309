import Abacus.Text.Utf8

namespace Abacus.CommandLine

/-- A stream that a text is written to piece by piece. It may stop taking bytes within a character. -/
structure Sink where
  /-- How many bytes of a piece are taken, given all that were taken before. -/
  takes : (held piece : List UInt8) → Nat
  /-- What is said of a write that was cut short. -/
  refusal : String
  /-- The bytes that were taken. -/
  held : List UInt8

namespace Sink

/-- The text that was taken. -/
def accepted (sink : Sink) : String := Text.Utf8.decodeLossyString sink.held

/-- A sink that takes everything. -/
def unlimited : Sink := ⟨fun _ piece => piece.length, "", []⟩

/-- A sink that takes whole pieces until it holds so many newlines, and nothing from then on. -/
def lines (limit : Nat) : Sink where
  takes held piece := if held.count 10 < limit then piece.length else 0
  refusal := "stream closed"
  held := []

/-- Writes a piece and says whether all of it was taken. -/
def write (sink : Sink) (piece : String) : Sink × Bool :=
  let bytes := Text.Utf8.encode piece.toList
  let room := sink.takes sink.held bytes
  ({ sink with held := sink.held ++ bytes.take room }, bytes.length ≤ room)

/-- Writes pieces up to the first that is cut short. -/
def writeAll (sink : Sink) : List String → Sink × Bool
  | [] => (sink, true)
  | piece :: pieces =>
    match sink.write piece with
    | (next, true) => next.writeAll pieces
    | (next, false) => (next, false)

/-- Writes pieces and then a newline. -/
def writeLine (sink : Sink) (pieces : List String) : Sink × Bool :=
  sink.writeAll (pieces ++ ["\n"])

end Sink

end Abacus.CommandLine
