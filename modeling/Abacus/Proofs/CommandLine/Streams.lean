import Abacus.CommandLine.Sink
import Abacus.Proofs.Text.Utf8
import Mathlib.Data.List.TakeDrop

namespace Abacus.CommandLine.Sink

open Text

variable {sink : Sink} {pieces more : List String} {taken : List UInt8} {text : String}

/-- The bytes of pieces, one behind the other. -/
def bytes (pieces : List String) : List UInt8 := pieces.flatMap fun piece => Utf8.encode piece.toList

@[simp] theorem bytes_nil : bytes [] = [] := rfl

@[simp] theorem bytes_cons (piece : String) (pieces : List String) :
    bytes (piece :: pieces) = Utf8.encode piece.toList ++ bytes pieces := rfl

@[simp] theorem bytes_append (pieces more : List String) :
    bytes (pieces ++ more) = bytes pieces ++ bytes more := List.flatMap_append

theorem bytes_eq_encode (pieces : List String) :
    bytes pieces = Utf8.encode (String.join pieces).toList := by
  induction pieces with
  | nil => rfl
  | cons piece pieces ih => simp [ih]

/-- The stream once it has taken these bytes. -/
def taking (sink : Sink) (taken : List UInt8) : Sink := { sink with held := sink.held ++ taken }

@[simp] theorem taking_refusal (sink : Sink) (taken : List UInt8) :
    (sink.taking taken).refusal = sink.refusal := rfl

@[simp] theorem taking_held (sink : Sink) (taken : List UInt8) :
    (sink.taking taken).held = sink.held ++ taken := rfl

@[simp] theorem taking_nil (sink : Sink) : sink.taking [] = sink := by
  simp [taking]

@[simp] theorem taking_taking (sink : Sink) (taken later : List UInt8) :
    (sink.taking taken).taking later = sink.taking (taken ++ later) := by
  simp [taking]

/-- A front of the bytes is taken, and it is all of them exactly if the write is complete. -/
def Wrote (sink : Sink) (bytes : List UInt8) (result : Sink × Bool) : Prop :=
  ∃ taken, result.1 = sink.taking taken ∧ taken <+: bytes ∧ (result.2 = true ↔ taken = bytes)

theorem wrote_write (sink : Sink) (piece : String) :
    sink.Wrote (Utf8.encode piece.toList) (sink.write piece) := by
  refine ⟨_, rfl, List.take_prefix _ _, ?_⟩
  simp [write, List.take_eq_self_iff]

/-- A piece that is cut short is the last one, so that what is taken stays a front of everything. -/
theorem wrote_writeAll (sink : Sink) (pieces : List String) :
    sink.Wrote (bytes pieces) (sink.writeAll pieces) := by
  induction pieces generalizing sink with
  | nil => exact ⟨[], (taking_nil sink).symm, List.nil_prefix, by simp [writeAll]⟩
  | cons piece pieces ih =>
    obtain ⟨taken, htaking, hfront, hwhole⟩ := sink.wrote_write piece
    rw [writeAll, bytes_cons]
    split
    next next hwrite =>
      rw [hwrite] at htaking hwhole
      have htaking : next = sink.taking taken := htaking
      obtain ⟨later, hlater, hbehind, hrest⟩ := ih next
      refine ⟨taken ++ later, ?_, ?_, ?_⟩
      · rw [hlater, htaking, taking_taking]
      · rw [hwhole.1 rfl]
        exact (List.prefix_append_right_inj _).2 hbehind
      · rw [hwhole.1 rfl, List.append_cancel_left_eq, hrest]
    next next hwrite =>
      rw [hwrite] at htaking hwhole
      refine ⟨taken, htaking, hfront.trans (List.prefix_append _ _), ?_⟩
      have hcut : taken ≠ Utf8.encode piece.toList := fun hall => Bool.false_ne_true (hwhole.2 hall)
      have hshort : taken ≠ Utf8.encode piece.toList ++ bytes pieces := by
        rintro rfl
        exact hcut (hfront.eq_of_length_le (by simp))
      simp [hshort]

theorem writeAll_append (sink : Sink) (pieces more : List String) :
    sink.writeAll (pieces ++ more) =
      match sink.writeAll pieces with
      | (next, true) => next.writeAll more
      | (next, false) => (next, false) := by
  induction pieces generalizing sink with
  | nil => rfl
  | cons piece pieces ih =>
    rw [List.cons_append, writeAll, writeAll]
    split
    · exact ih _
    · rfl

@[simp] theorem writeAll_refusal (sink : Sink) (pieces : List String) :
    (sink.writeAll pieces).1.refusal = sink.refusal := by
  obtain ⟨taken, htaking, _⟩ := sink.wrote_writeAll pieces
  rw [htaking, taking_refusal]

theorem writeAll_held_prefix (sink : Sink) (pieces : List String) :
    (sink.writeAll pieces).1.held <+: sink.held ++ bytes pieces := by
  obtain ⟨taken, htaking, hfront, _⟩ := sink.wrote_writeAll pieces
  rw [htaking, taking_held]
  exact (List.prefix_append_right_inj _).2 hfront

theorem writeAll_complete_iff :
    (sink.writeAll pieces).2 = true ↔ (sink.writeAll pieces).1.held = sink.held ++ bytes pieces := by
  obtain ⟨taken, htaking, _, hwhole⟩ := sink.wrote_writeAll pieces
  rw [htaking, taking_held, List.append_cancel_left_eq, hwhole]

/-- A stream that no write to it fails on. -/
def TakesAll (sink : Sink) : Prop := ∀ held piece, piece.length ≤ sink.takes held piece

theorem unlimited_takesAll : unlimited.TakesAll := fun _ _ => Nat.le_refl _

theorem TakesAll.write_eq (h : sink.TakesAll) (piece : String) :
    sink.write piece = (sink.taking (Utf8.encode piece.toList), true) := by
  have hroom := h sink.held (Utf8.encode piece.toList)
  simp [write, taking, hroom, List.take_of_length_le]

/-- A stream that takes everything takes all pieces. -/
theorem TakesAll.writeAll_eq (h : sink.TakesAll) (pieces : List String) :
    sink.writeAll pieces = (sink.taking (bytes pieces), true) := by
  induction pieces generalizing sink with
  | nil => simp [writeAll]
  | cons piece pieces ih =>
    have hnext : (sink.taking (Utf8.encode piece.toList)).TakesAll := h
    rw [writeAll, h.write_eq]
    simpa using ih hnext

theorem writeAll_unlimited (pieces : List String) :
    unlimited.writeAll pieces = (unlimited.taking (bytes pieces), true) :=
  unlimited_takesAll.writeAll_eq pieces

/-- The stream has taken this text and nothing else. -/
def Holds (sink : Sink) (text : String) : Prop := sink.held = Utf8.encode text.toList

instance : Decidable (sink.Holds text) := inferInstanceAs (Decidable (_ = _))

theorem Holds.accepted (h : sink.Holds text) : sink.accepted = text := by
  rw [Sink.accepted, h, Utf8.decodeLossyString, Utf8.decodeLossy_encode, String.ofList_toList]

end Abacus.CommandLine.Sink
