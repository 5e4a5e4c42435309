import Abacus.Proofs.Bytes.Lexer

namespace Abacus.Bytes

open Text

variable {source : String} {pos : Nat} {c d : Char} {text w rest : List Char} {p : Char → Bool}

/-- What is left of the source from a place on that is between characters. -/
def At (source : String) (pos : Nat) (text : List Char) : Prop :=
  ∃ front, source.toList = front ++ text ∧ pos = Utf8.size front

/-- Only characters of one byte are of the kind. -/
def Ascii (p : Char → Bool) : Prop := ∀ c, p c → c.toNat < 0x80

/-- Whoever takes a part of the text at a place is behind that part, with the rest of the text there. -/
def Passes (pos : Nat) (text : List Char) (stop : Nat) (rest : List Char) : Prop :=
  ∃ w, text = w ++ rest ∧ stop = pos + Utf8.size w

/-- The first byte of a character, taken for a character by itself. -/
def lead (c : Char) : Char := ((String.utf8EncodeChar c).head?.map Char.ofUInt8).getD c

theorem size_singleton (h : c.toNat < 0x80) : Utf8.size [c] = 1 := by
  have hone : c.utf8Size = 1 := by
    rw [Char.utf8Size_eq_one_iff, UInt32.le_iff_toNat_le]
    exact Nat.le_of_lt_succ h
  rw [Utf8.size, hone]
  rfl

theorem toNat_ofUInt8 (byte : UInt8) : (Char.ofUInt8 byte).toNat = byte.toNat := rfl

theorem lead_of_ascii (h : c.toNat < 0x80) : lead c = c := by
  have hchar := Utf8.encodeChar_ascii h
  rw [Char.ofNat_toNat] at hchar
  rw [lead, hchar, List.head?_cons, Option.map_some, Option.getD_some, ← Char.toNat_inj, toNat_ofUInt8,
    UInt8.toNat_ofNat']
  omega

/-- The first of several bytes is no character by itself. -/
theorem le_lead (h : 0x80 ≤ c.toNat) : 0x80 ≤ (lead c).toNat := by
  obtain ⟨count, hsized⟩ := (Utf8.ascii_or_sized c.valid).resolve_left (Nat.not_lt_of_ge h)
  have hchar := Utf8.encodeChar_sized c.valid hsized
  have hrange := Utf8.followers?_eq_some_iff.1 (Utf8.lead_iff.2 ⟨c.valid, hsized, rfl⟩).1
  rw [show Char.ofNat c.val.toNat = c from c.ofNat_toNat] at hchar
  rw [lead, hchar, List.head?_cons, Option.map_some, Option.getD_some, toNat_ofUInt8, UInt8.toNat_ofNat',
    Nat.mod_eq_of_lt (by omega)]
  omega

theorem ascii_beq (hd : d.toNat < 0x80) : Ascii (· == d) := by
  intro c hc
  rwa [beq_iff_eq.1 hc]

theorem Ascii.eq_false (hp : Ascii p) (hc : 0x80 ≤ c.toNat) : p c = false := by
  rw [← Bool.not_eq_true]
  exact fun hpc => absurd (hp c hpc) (Nat.not_lt_of_ge hc)

theorem apply_lead (hp : Ascii p) (c : Char) : p (lead c) = p c := by
  rcases Nat.lt_or_ge c.toNat 0x80 with hascii | hlong
  · rw [lead_of_ascii hascii]
  · rw [hp.eq_false hlong, hp.eq_false (le_lead hlong)]

namespace Passes

variable {stop last : Nat} {others : List Char}

theorem refl (pos : Nat) (text : List Char) : Passes pos text pos text := ⟨[], rfl, rfl⟩

theorem trans (h : Passes pos text stop rest) (hrest : Passes stop rest last others) :
    Passes pos text last others := by
  obtain ⟨w, rfl, rfl⟩ := h
  obtain ⟨v, rfl, rfl⟩ := hrest
  exact ⟨w ++ v, (List.append_assoc w v others).symm, by rw [Utf8.size_append, Nat.add_assoc]⟩

theorem cons (h : c.toNat < 0x80) (pos : Nat) (rest : List Char) :
    Passes pos (c :: rest) (pos + 1) rest :=
  ⟨[c], rfl, by rw [size_singleton h]⟩

theorem eq_stop (h : Passes pos text stop rest) :
    pos + (Utf8.size text - Utf8.size rest) = stop := by
  obtain ⟨w, rfl, rfl⟩ := h
  rw [Utf8.size_append, Nat.add_sub_cancel]

end Passes

namespace At

theorem start (source : String) : At source 0 source.toList := ⟨[], rfl, rfl⟩

theorem behind (h : At source pos (w ++ rest)) : At source (pos + Utf8.size w) rest := by
  obtain ⟨front, htext, rfl⟩ := h
  exact ⟨front ++ w, by rw [htext, List.append_assoc], (Utf8.size_append front w).symm⟩

theorem passes {stop : Nat} (h : At source pos text) (hpasses : Passes pos text stop rest) :
    At source stop rest := by
  obtain ⟨w, rfl, rfl⟩ := hpasses
  exact h.behind

theorem tail (h : At source pos (c :: rest)) (hc : c.toNat < 0x80) : At source (pos + 1) rest := by
  rw [← size_singleton hc]
  exact h.behind

theorem drop_bytes (h : At source pos text) : (bytes source).drop pos = Utf8.encode text := by
  obtain ⟨front, htext, rfl⟩ := h
  rw [bytes, htext, Utf8.encode_append, ← Utf8.length_encode, List.drop_left]

theorem length_bytes (h : At source pos text) : (bytes source).length = pos + Utf8.size text := by
  obtain ⟨front, htext, rfl⟩ := h
  rw [bytes, htext, Utf8.length_encode, Utf8.size_append]

theorem peek_nil (h : At source pos []) : peek source pos = none := by
  rw [peek, ← List.head?_drop, h.drop_bytes]
  rfl

theorem peek_cons (h : At source pos (c :: rest)) : peek source pos = some (lead c) := by
  have hsome : (String.utf8EncodeChar c).head?.isSome := by
    rw [List.isSome_head?, ← List.length_pos_iff, String.length_utf8EncodeChar]
    exact c.utf8Size_pos
  obtain ⟨byte, hbyte⟩ := Option.isSome_iff_exists.1 hsome
  rw [peek, ← List.head?_drop, h.drop_bytes, Utf8.encode_cons, lead, List.head?_append, hbyte]
  rfl

theorem any_peek (h : At source pos text) (hp : Ascii p) : (peek source pos).any p = text.head?.any p := by
  cases text with
  | nil => rw [h.peek_nil]; rfl
  | cons c rest =>
    rw [h.peek_cons]
    exact apply_lead hp c

/-- A byte that is a character comes next exactly if that character does. -/
theorem peek_eq_some_iff (h : At source pos text) (hd : d.toNat < 0x80) :
    peek source pos = some d ↔ ∃ rest, text = d :: rest := by
  cases text with
  | nil => simp [h.peek_nil]
  | cons c rest =>
    have hlead := apply_lead (ascii_beq hd) c
    rw [Bool.eq_iff_iff, beq_iff_eq, beq_iff_eq] at hlead
    rw [h.peek_cons, Option.some_inj, hlead]
    simp

theorem eat_cases (h : At source pos text) (hd : d.toNat < 0x80) :
    (∃ rest, text = d :: rest ∧ eat source d pos = some (pos + 1) ∧ At source (pos + 1) rest) ∨
      eat source d pos = none ∧ Clear (· == d) text := by
  by_cases hpeek : peek source pos = some d
  · obtain ⟨rest, rfl⟩ := (h.peek_eq_some_iff hd).1 hpeek
    exact .inl ⟨rest, rfl, if_pos hpeek, h.tail hd⟩
  · refine .inr ⟨if_neg hpeek, fun c hc => beq_false_of_ne ?_⟩
    rintro rfl
    obtain ⟨rest, rfl⟩ := List.head?_eq_some_iff.1 hc
    exact hpeek ((h.peek_eq_some_iff hd).2 ⟨rest, rfl⟩)

theorem skipWhile (h : At source pos text) (hp : Ascii p) :
    Bytes.skipWhile source p pos = pos + Utf8.size (text.takeWhile p) := by
  induction text generalizing pos with
  | nil =>
    rw [Bytes.skipWhile]
    split
    · rename_i byte hbyte
      rw [h.peek_nil] at hbyte
      cases hbyte
    · rfl
  | cons c rest ih =>
    rw [Bytes.skipWhile]
    split
    · rename_i byte hbyte
      rw [h.peek_cons] at hbyte
      cases hbyte
      rw [apply_lead hp]
      split
      · rename_i hc
        rw [ih (h.tail (hp c hc)), List.takeWhile_cons_of_pos hc, ← List.singleton_append,
          Utf8.size_append, size_singleton (hp c hc), Nat.add_assoc]
      · rename_i hc
        rw [List.takeWhile_cons_of_neg hc]
        rfl
    · rename_i hbyte
      rw [h.peek_cons] at hbyte
      cases hbyte

theorem passes_skipWhile (h : At source pos text) (hp : Ascii p) :
    Passes pos text (Bytes.skipWhile source p pos) (text.dropWhile p) :=
  ⟨text.takeWhile p, List.takeWhile_append_dropWhile.symm, h.skipWhile hp⟩

/-- A place between characters is one that the source may be cut at. -/
theorem isValid (h : At source pos text) : (⟨pos⟩ : String.Pos.Raw).IsValid source := by
  obtain ⟨front, htext, rfl⟩ := h
  rw [← String.ofList_toList (s := source), String.Pos.Raw.isValid_ofList]
  refine ⟨front.length, ?_⟩
  rw [htext, List.take_left, utf8ByteSize_eq_size, String.toList_ofList]

theorem cut (h : At source pos (w ++ rest)) : Bytes.cut source pos (pos + Utf8.size w) = .ok w := by
  have hstart := String.Pos.Raw.isValid_eq_true_iff.2 h.isValid
  have hstop := String.Pos.Raw.isValid_eq_true_iff.2 h.behind.isValid
  rw [Bytes.cut, if_pos ⟨Nat.le_add_right _ _, hstart, hstop⟩, h.drop_bytes, Nat.add_sub_cancel_left,
    Utf8.encode_append, ← Utf8.length_encode, List.take_left, Utf8.decodeLossy_encode]

theorem cut_end (h : At source pos text) : Bytes.cut source pos (bytes source).length = .ok text := by
  rw [h.length_bytes]
  rw [← List.append_nil text] at h
  exact h.cut

end At

end Abacus.Bytes
