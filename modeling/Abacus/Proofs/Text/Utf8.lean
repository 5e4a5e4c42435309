import Abacus.Text.Utf8
import Mathlib.Algebra.Group.Nat.Defs
import Mathlib.Tactic.SplitIfs

namespace Abacus.Text.Utf8

variable {first second byte : UInt8} {bytes rest : List UInt8} {count code n : Nat} {c : Char}
  {s t : List Char}

/-- Bytes that some text is written as. -/
def Valid (bytes : List UInt8) : Prop := ∃ text, encode text = bytes

@[simp] theorem encode_nil : encode [] = [] := rfl

@[simp] theorem encode_cons (c : Char) (text : List Char) :
    encode (c :: text) = String.utf8EncodeChar c ++ encode text := rfl

@[simp] theorem encode_append (s t : List Char) : encode (s ++ t) = encode s ++ encode t := by
  simp [encode]

/-- A byte behind the first one, with the last six bits of a number. -/
def continuation (n : Nat) : UInt8 := .ofNat (n % 64 + 128)

/-- So many bytes behind the first one, with the last bits of a number. -/
def continuations : Nat → Nat → List UInt8
  | 0, _ => []
  | count + 1, n => continuation (n / 64 ^ count) :: continuations count n

@[simp] theorem toNat_continuation (n : Nat) : (continuation n).toNat = n % 64 + 128 := by
  rw [continuation, UInt8.toNat_ofNat']
  omega

theorem isContinuation_iff : isContinuation byte ↔ 0x80 ≤ byte.toNat ∧ byte.toNat < 0xc0 := by
  simp [isContinuation]

@[simp] theorem isContinuation_continuation (n : Nat) : isContinuation (continuation n) := by
  rw [isContinuation_iff, toNat_continuation]
  omega

theorem div_succ_pow (n count : Nat) : n / 64 ^ (count + 1) = n / 64 ^ count / 64 := by
  rw [Nat.pow_succ, Nat.div_div_eq_div_mul]

/-- The bits that were read so far and those behind them make up the number. -/
theorem trail_eq_some_iff :
    trail count code bytes = (some n, rest) ↔
      code = n / 64 ^ count ∧ bytes = continuations count n ++ rest := by
  induction count generalizing code bytes with
  | zero => simp [trail, continuations]
  | succ count ih =>
    rw [continuations, List.cons_append, div_succ_pow]
    cases bytes with
    | nil => simp [trail]
    | cons byte later =>
      rw [trail]
      split
      next hbyte =>
        have hrange := isContinuation_iff.1 hbyte
        have hsplit : 64 * code + byte.toNat % 64 = n / 64 ^ count ↔
            code = n / 64 ^ count / 64 ∧ byte = continuation (n / 64 ^ count) := by
          rw [← UInt8.toNat_inj, toNat_continuation]
          omega
        rw [ih, hsplit, List.cons.injEq, and_assoc]
      next hbyte =>
        have hother : byte ≠ continuation (n / 64 ^ count) := by
          rintro rfl
          exact hbyte (isContinuation_continuation _)
        simp [hother]

theorem toNat_ofNat (h : n.isValidChar) : (Char.ofNat n).val.toNat = n := by
  rw [Char.ofNat, dif_pos h]
  rfl

/-- The numbers whose characters have so many bytes behind the second one. -/
def Sized : Nat → Nat → Prop
  | 0, n => 0x80 ≤ n ∧ n < 0x800
  | 1, n => 0x800 ≤ n ∧ n < 0x10000
  | 2, n => 0x10000 ≤ n ∧ n < 0x110000
  | _, _ => False

/-- What is added to the first bits of a number with so many bytes behind the second one. -/
def mark : Nat → Nat
  | 0 => 0xc0
  | 1 => 0xe0
  | _ => 0xf0

theorem ascii_or_sized (h : n.isValidChar) : n < 0x80 ∨ ∃ count, Sized count n := by
  have hrange : n < 0xd800 ∨ 0xdfff < n ∧ n < 0x110000 := h
  by_cases hone : n < 0x80
  · exact .inl hone
  by_cases htwo : n < 0x800
  · exact .inr ⟨0, by omega, htwo⟩
  by_cases hthree : n < 0x10000
  · exact .inr ⟨1, by omega, hthree⟩
  · exact .inr ⟨2, by omega, by omega⟩

theorem encodeChar_ascii (h : n < 0x80) : String.utf8EncodeChar (.ofNat n) = [.ofNat n] := by
  have hvalid : n.isValidChar := .inl (by omega)
  unfold String.utf8EncodeChar
  rw [toNat_ofNat hvalid]
  exact if_pos (by omega)

theorem encodeChar_sized (hvalid : n.isValidChar) (h : Sized count n) :
    String.utf8EncodeChar (.ofNat n) =
      .ofNat (n / 64 ^ (count + 1) + mark count) :: continuations (count + 1) n := by
  unfold String.utf8EncodeChar
  rw [toNat_ofNat hvalid]
  match count, h with
  | 0, ⟨hlow, hhigh⟩ =>
    have hlead : n / 64 % 32 = n / 64 := by omega
    simp only
    rw [if_neg (by omega), if_pos (by omega), hlead]
    simp [continuations, continuation, mark]
  | 1, ⟨hlow, hhigh⟩ =>
    have hlead : n / 4096 % 16 = n / 4096 := by omega
    simp only
    rw [if_neg (by omega), if_neg (by omega), if_pos (by omega), hlead]
    simp [continuations, continuation, mark]
  | 2, ⟨hlow, hhigh⟩ =>
    have hlead : n / 262144 % 8 = n / 262144 := by omega
    simp only
    rw [if_neg (by omega), if_neg (by omega), if_neg (by omega), hlead]
    simp [continuations, continuation, mark]

theorem followers?_eq_some_iff {lead : Nat} :
    followers? lead = some count ↔
      0xc2 ≤ lead ∧ lead < 0xe0 ∧ count = 1 ∨ 0xe0 ≤ lead ∧ lead < 0xf0 ∧ count = 2 ∨
        0xf0 ≤ lead ∧ lead < 0xf5 ∧ count = 3 := by
  unfold followers?
  split_ifs <;> simp <;> omega

theorem admits_iff {lead second : Nat} :
    admits lead second ↔ (lead = 0xe0 → 0xa0 ≤ second) ∧ (lead = 0xed → second < 0xa0) ∧
      (lead = 0xf0 → 0x90 ≤ second) ∧ (lead = 0xf4 → second < 0x90) := by
  unfold admits
  split_ifs <;> simp [*]

/-- A first byte that may stand before the others is the one that the number has. -/
theorem lead_iff {lead : Nat} :
    followers? lead = some (count + 1) ∧ admits lead (n / 64 ^ count % 64 + 128) ∧
        leadBits lead (count + 1) = n / 64 ^ (count + 1) ↔
      n.isValidChar ∧ Sized count n ∧ lead = n / 64 ^ (count + 1) + mark count := by
  rw [followers?_eq_some_iff, admits_iff]
  unfold Nat.isValidChar
  match count with
  | 0 =>
    simp only [Sized, mark, leadBits, Nat.reduceAdd, Nat.reduceEqDiff, and_true, and_false, or_false]
    omega
  | 1 =>
    simp only [Sized, mark, leadBits, Nat.reduceAdd, Nat.reduceEqDiff, and_true, and_false, or_false,
      false_or]
    omega
  | 2 =>
    simp only [Sized, mark, leadBits, Nat.reduceAdd, Nat.reduceEqDiff, and_true, and_false, false_or]
    omega
  | count + 3 =>
    simp only [Sized, false_and, and_false, iff_false]
    omega

theorem next_ascii (h : first.toNat < 0x80) : next first bytes = (some (.ofNat first.toNat), bytes) := by
  simp [next, h]

/-- A character of several bytes is the one that their bits make up. -/
theorem next_longer (hfirst : 0x80 ≤ first.toNat) :
    next first bytes = (some c, rest) ↔
      ∃ count n, n.isValidChar ∧ Sized count n ∧ first.toNat = n / 64 ^ (count + 1) + mark count ∧
        c = .ofNat n ∧ bytes = continuations (count + 1) n ++ rest := by
  have hascii : ¬first.toNat < 0x80 := by omega
  constructor
  · intro h
    unfold next at h
    simp only [if_neg hascii] at h
    split at h
    next followers second later hcount =>
      obtain ⟨count, rfl⟩ : ∃ count, followers = count + 1 := by
        have hpositive := followers?_eq_some_iff.1 hcount
        exact ⟨followers - 1, by omega⟩
      split at h
      next hsecond =>
        obtain ⟨hcode, hrest⟩ := Prod.mk.injEq .. ▸ h
        obtain ⟨n, hn, hc⟩ := Option.map_eq_some_iff.1 hcode
        obtain ⟨hbits, hbytes⟩ := trail_eq_some_iff.1 (Prod.ext hn hrest)
        have hhead : second = continuation (n / 64 ^ count) := (List.cons.inj hbytes).1
        rw [hhead, toNat_continuation] at hsecond
        obtain ⟨hvalid, hsized, hlead⟩ := lead_iff.1 ⟨hcount, hsecond, hbits⟩
        exact ⟨count, n, hvalid, hsized, hlead, hc.symm, hbytes⟩
      next => simp at h
    next => simp at h
  · rintro ⟨count, n, hvalid, hsized, hlead, rfl, hbytes⟩
    obtain ⟨hcount, hadmits, hbits⟩ := lead_iff.2 ⟨hvalid, hsized, hlead⟩
    have htrail := trail_eq_some_iff.2 ⟨hbits, hbytes⟩
    rw [continuations, List.cons_append] at hbytes
    subst hbytes
    simp [next, hascii, hcount, hadmits, htrail]

/-- What is read as a character is how that character is written. -/
theorem next_eq_some_iff :
    next first bytes = (some c, rest) ↔ first :: bytes = String.utf8EncodeChar c ++ rest := by
  constructor
  · intro h
    by_cases hascii : first.toNat < 0x80
    · rw [next_ascii hascii] at h
      obtain ⟨rfl, rfl⟩ : Char.ofNat first.toNat = c ∧ bytes = rest := by simpa using h
      simp [encodeChar_ascii hascii]
    · obtain ⟨count, n, hvalid, hsized, hlead, rfl, rfl⟩ := (next_longer (by omega)).1 h
      rw [encodeChar_sized hvalid hsized, ← hlead, UInt8.ofNat_toNat, List.cons_append]
  · intro h
    obtain ⟨n, hvalid, rfl⟩ : ∃ n, n.isValidChar ∧ Char.ofNat n = c := ⟨_, c.valid, c.ofNat_toNat⟩
    rcases ascii_or_sized hvalid with hascii | ⟨count, hsized⟩
    · rw [encodeChar_ascii hascii] at h
      obtain ⟨rfl, rfl⟩ := List.cons.inj h
      have hlead : (UInt8.ofNat n).toNat = n := by
        rw [UInt8.toNat_ofNat']
        omega
      rw [next_ascii (by omega), hlead]
    · rw [encodeChar_sized hvalid hsized] at h
      obtain ⟨rfl, rfl⟩ := List.cons.inj h
      have hrange := followers?_eq_some_iff.1 (lead_iff.2 ⟨hvalid, hsized, rfl⟩).1
      have hlead : (UInt8.ofNat (n / 64 ^ (count + 1) + mark count)).toNat =
          n / 64 ^ (count + 1) + mark count := by
        rw [UInt8.toNat_ofNat']
        exact Nat.mod_eq_of_lt (by omega)
      exact (next_longer (by omega)).2 ⟨count, n, hvalid, hsized, hlead, rfl, rfl⟩

theorem pieces_cons (first : UInt8) (bytes : List UInt8) :
    pieces (first :: bytes) = (next first bytes).1 :: pieces (next first bytes).2 := by
  rw [pieces]

theorem pieces_eq_map_some_iff : pieces bytes = s.map some ↔ encode s = bytes := by
  induction s generalizing bytes with
  | nil =>
    cases bytes with
    | nil => simp [pieces]
    | cons first bytes => simp [pieces_cons]
  | cons c s ih =>
    cases bytes with
    | nil => simp [pieces]
    | cons first bytes =>
      rw [pieces_cons, List.map_cons, List.cons.injEq, ih, encode_cons, eq_comm (b := first :: bytes)]
      constructor
      · rintro ⟨hc, hs⟩
        rw [hs]
        exact next_eq_some_iff.1 (Prod.ext hc rfl)
      · intro h
        rw [next_eq_some_iff.2 h]
        exact ⟨rfl, rfl⟩

theorem mapM_id_eq_some_iff {ps : List (Option Char)} : ps.mapM id = some s ↔ ps = s.map some := by
  induction ps generalizing s with
  | nil => cases s <;> simp
  | cons p ps ih =>
    cases s with
    | nil => cases p <;> simp [Option.bind_eq_some_iff]
    | cons c s => cases p <;> simp [Option.bind_eq_some_iff, ih, and_left_comm]

/-- The bytes that are read as a text are those of the text. -/
theorem decode?_eq_some_iff : decode? bytes = some s ↔ encode s = bytes := by
  rw [decode?, mapM_id_eq_some_iff, pieces_eq_map_some_iff]

theorem decode?_eq_none_iff : decode? bytes = none ↔ ¬Valid bytes := by
  simp [Option.eq_none_iff_forall_ne_some, decode?_eq_some_iff, Valid]

theorem isSome_decode?_iff : (decode? bytes).isSome ↔ Valid bytes := by
  simp [Option.isSome_iff_exists, decode?_eq_some_iff, Valid]

instance : Decidable (Valid bytes) := decidable_of_iff _ isSome_decode?_iff

theorem valid_encode (s : List Char) : Valid (encode s) := ⟨s, rfl⟩

@[simp] theorem decode?_encode (s : List Char) : decode? (encode s) = some s :=
  decode?_eq_some_iff.2 rfl

theorem encode_injective (h : encode s = encode t) : s = t := by
  have hread := decode?_encode s
  rw [h, decode?_encode] at hread
  exact (Option.some.inj hread).symm

@[simp] theorem decodeLossy_encode (s : List Char) : decodeLossy (encode s) = s := by
  rw [decodeLossy, pieces_eq_map_some_iff.2 rfl, List.map_map]
  exact List.map_id s

/-- A text without the replacement character is read from its own bytes alone. -/
theorem encode_decodeLossy (h : '\ufffd' ∉ decodeLossy bytes) : encode (decodeLossy bytes) = bytes := by
  have hwhole : ∀ piece ∈ pieces bytes, piece = some (piece.getD '\ufffd') := by
    intro piece hpiece
    cases piece with
    | none => exact absurd (List.mem_map.2 ⟨none, hpiece, rfl⟩) h
    | some c => rfl
  rw [← pieces_eq_map_some_iff, decodeLossy, List.map_map]
  calc
    pieces bytes = (pieces bytes).map id := (List.map_id _).symm
    _ = _ := List.map_congr_left hwhole

theorem replacement_mem_decodeLossy (h : ¬Valid bytes) : '\ufffd' ∈ decodeLossy bytes :=
  Decidable.byContradiction fun hnone => h ⟨_, encode_decodeLossy hnone⟩

theorem toList_decodeLossyString (bytes : List UInt8) :
    (decodeLossyString bytes).toList = decodeLossy bytes := String.toList_ofList

theorem decodeLossyString_eq_iff {text : String} (h : '\ufffd' ∉ text.toList) :
    decodeLossyString bytes = text ↔ bytes = encode text.toList := by
  constructor
  · rintro rfl
    rw [toList_decodeLossyString] at h ⊢
    exact (encode_decodeLossy h).symm
  · rintro rfl
    rw [decodeLossyString, decodeLossy_encode, String.ofList_toList]

@[simp] theorem size_append (s t : List Char) : size (s ++ t) = size s + size t := by
  induction s with
  | nil => exact (Nat.zero_add _).symm
  | cons c s ih =>
    simp only [List.cons_append, size, ih]
    omega

theorem size_pos {text : List Char} (h : text ≠ []) : 0 < size text := by
  cases text with
  | nil => exact absurd rfl h
  | cons c text => exact Nat.add_pos_left c.utf8Size_pos _

theorem length_encode (text : List Char) : (encode text).length = size text := by
  induction text with
  | nil => rfl
  | cons c text ih =>
    rw [encode_cons, List.length_append, String.length_utf8EncodeChar, ih]
    rfl

end Abacus.Text.Utf8

namespace Abacus.Text

/-- A byte of a text is a byte of one of its characters. -/
theorem utf8ByteSize_eq_size (text : String) : text.utf8ByteSize = Utf8.size text.toList := by
  rw [← String.ofList_toList (s := text)]
  generalize text.toList = chars
  rw [String.toList_ofList]
  induction chars with
  | nil => rfl
  | cons c chars ih =>
    rw [String.ofList_cons, String.utf8ByteSize_append, ih]
    simp [Utf8.size]

end Abacus.Text
