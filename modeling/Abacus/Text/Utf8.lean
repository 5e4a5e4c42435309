namespace Abacus.Text.Utf8

/-- How many bytes follow a first byte; none if no character of several bytes starts with it. -/
def followers? (lead : Nat) : Option Nat :=
  if lead < 0xc2 then none
  else if lead < 0xe0 then some 1
  else if lead < 0xf0 then some 2
  else if lead < 0xf5 then some 3
  else none

/-- The second bytes left out after some first bytes: overlong forms, surrogates, and code points
past the last one. -/
def admits (lead second : Nat) : Bool :=
  if lead = 0xe0 then 0xa0 ≤ second
  else if lead = 0xed then second < 0xa0
  else if lead = 0xf0 then 0x90 ≤ second
  else if lead = 0xf4 then second < 0x90
  else true

def isContinuation (byte : UInt8) : Bool := 0x80 ≤ byte.toNat && byte.toNat < 0xc0

/-- The bits that a first byte with so many followers contributes. -/
def leadBits (lead followers : Nat) : Nat :=
  match followers with
  | 1 => lead % 32
  | 2 => lead % 16
  | _ => lead % 8

/-- Reads so many continuation bytes, six bits each. -/
def trail : Nat → Nat → List UInt8 → Option Nat × List UInt8
  | 0, code, bytes => (some code, bytes)
  | count + 1, code, byte :: bytes =>
    if isContinuation byte then trail count (64 * code + byte.toNat % 64) bytes
    else (none, byte :: bytes)
  | _ + 1, _, [] => (none, [])

/-- The piece that starts with a byte, and the bytes after the piece. A malformed piece is the longest run
of bytes that starts some character, or one byte that starts none. -/
def next (first : UInt8) (bytes : List UInt8) : Option Char × List UInt8 :=
  let lead := first.toNat
  if lead < 0x80 then (some (.ofNat lead), bytes)
  else match followers? lead, bytes with
    | some followers, second :: _ =>
      if admits lead second.toNat then
        let (code, rest) := trail followers (leadBits lead followers) bytes
        (code.map .ofNat, rest)
      else (none, bytes)
    | _, _ => (none, bytes)

theorem length_trail_le (count code : Nat) (bytes : List UInt8) :
    (trail count code bytes).2.length ≤ bytes.length := by
  fun_induction trail count code bytes with
  | case1 => simp
  | case2 _ _ _ _ _ ih => simp only [List.length_cons]; omega
  | case3 => simp
  | case4 => simp

theorem length_next_le (first : UInt8) (bytes : List UInt8) :
    (next first bytes).2.length ≤ bytes.length := by
  unfold next
  dsimp only
  split
  · simp
  · split
    · split
      · exact length_trail_le _ _ _
      · simp
    · simp

/-- The pieces in order, `none` for a malformed one. -/
def pieces : List UInt8 → List (Option Char)
  | [] => []
  | first :: bytes =>
    have : (next first bytes).2.length < (first :: bytes).length :=
      Nat.lt_succ_of_le (length_next_le first bytes)
    (next first bytes).1 :: pieces (next first bytes).2
termination_by bytes => bytes.length
decreasing_by exact this

/-- The text, if no piece is malformed. -/
def decode? (bytes : List UInt8) : Option (List Char) := (pieces bytes).mapM id

/-- The text with a replacement character for each malformed piece. -/
def decodeLossy (bytes : List UInt8) : List Char :=
  (pieces bytes).map fun piece => piece.getD '\ufffd'

def decodeLossyString (bytes : List UInt8) : String := .ofList (decodeLossy bytes)

def encode (text : List Char) : List UInt8 := text.flatMap String.utf8EncodeChar

/-- How many bytes a text takes. -/
def size : List Char → Nat
  | [] => 0
  | c :: rest => c.utf8Size + size rest

end Abacus.Text.Utf8
