import Abacus.Health.Connection
import Abacus.Proofs.Text.Utf8
import Mathlib.Data.List.SplitBy

namespace Abacus.Health.Ending

open Text

variable {line bytes : List UInt8} {ended : Bool}

/-- Bytes cut behind each newline. What is left behind the last one is a line as well. -/
def lines (bytes : List UInt8) : List (List UInt8) := bytes.splitBy fun byte _ => byte != newline

/-- A line with its newline. -/
def IsTerminated (line : List UInt8) : Prop := ∃ front, newline ∉ front ∧ line = front ++ [newline]

theorem IsTerminated.newline_mem (h : IsTerminated line) : newline ∈ line := by
  obtain ⟨front, _, rfl⟩ := h
  simp

theorem newline_mem_of_isBlankLine (h : isBlankLine line) : newline ∈ line := by
  have hline : line = [13, newline] ∨ line = [newline] := by simpa [isBlankLine] using h
  rcases hline with rfl | rfl <;> simp

theorem splitLine?_of_notMem (h : newline ∉ bytes) : splitLine? bytes = none := by
  induction bytes with
  | nil => rfl
  | cons byte bytes ih =>
    rw [List.mem_cons, not_or] at h
    simp [splitLine?, Ne.symm h.1, ih h.2]

theorem splitLine?_append (h : IsTerminated line) (rest : List UInt8) :
    splitLine? (line ++ rest) = some (line, rest) := by
  obtain ⟨front, hfront, rfl⟩ := h
  induction front with
  | nil => simp [splitLine?]
  | cons byte front ih =>
    rw [List.mem_cons, not_or] at hfront
    have hrest : splitLine? (front ++ newline :: rest) = some (front ++ [newline], rest) := by
      simpa using ih hfront.2
    simp [splitLine?, Ne.symm hfront.1, hrest]

@[simp] theorem lines_nil : lines [] = [] := rfl

theorem isChain_concat {front : List UInt8} (h : newline ∉ front) (last : UInt8) :
    (front ++ [last]).IsChain fun byte _ => byte != newline := by
  induction front with
  | nil => exact .singleton last
  | cons byte front ih =>
    rw [List.mem_cons, not_or] at h
    rw [List.cons_append, List.isChain_cons]
    exact ⟨fun _ _ => by simpa using Ne.symm h.1, ih h.2⟩

theorem lines_of_notMem (h : newline ∉ bytes) (hne : bytes ≠ []) : lines bytes = [bytes] := by
  have hfront : newline ∉ bytes.dropLast := fun hmem => h (bytes.dropLast_subset hmem)
  have hchain := isChain_concat hfront (bytes.getLast hne)
  rw [List.dropLast_concat_getLast] at hchain
  exact List.splitBy_of_isChain hne hchain

theorem lines_append (h : IsTerminated line) (rest : List UInt8) :
    lines (line ++ rest) = line :: lines rest := by
  obtain ⟨front, hfront, rfl⟩ := h
  have hone : lines (front ++ [newline]) = [front ++ [newline]] :=
    List.splitBy_of_isChain (by simp) (isChain_concat hfront newline)
  have hcut : lines (front ++ [newline] ++ rest) = lines (front ++ [newline]) ++ lines rest :=
    List.splitBy_append (by simp)
  rw [hcut, hone, List.singleton_append]

/-- Bytes are some lines with their newlines, and a rest without one. -/
theorem induction_lines {motive : List UInt8 → Prop} (bytes : List UInt8)
    (rest : ∀ bytes, newline ∉ bytes → motive bytes)
    (line : ∀ line rest, IsTerminated line → motive rest → motive (line ++ rest)) : motive bytes := by
  induction hlength : bytes.length using Nat.strongRecOn generalizing bytes with
  | ind n ih =>
    by_cases hmem : newline ∈ bytes
    · obtain ⟨front, later, hbytes, hfront⟩ := List.eq_append_cons_of_mem hmem
      have hsplit : bytes = front ++ [newline] ++ later := by simp [hbytes]
      have hlater : later.length < n := by
        simp only [← hlength, hbytes, List.length_append, List.length_cons]
        omega
      rw [hsplit]
      exact line _ later ⟨front, hfront, rfl⟩ (ih _ hlater later rfl)
    · exact rest bytes hmem

theorem ofHead_of_line {found : List UInt8 × List UInt8} {request : Option (List Char)}
    (h : splitLine? bytes = some found) :
    ofHead ended request bytes =
      match Utf8.decode? found.1, request with
      | none, _ => invalidData
      | some text, none => ofHead ended (some text) found.2
      | some _, some request =>
        if isBlankLine found.1 then answer request else ofHead ended (some request) found.2 := by
  rw [ofHead]
  split
  next line rest hfound =>
    rw [h] at hfound
    cases hfound
    rfl
  next hnone =>
    rw [h] at hnone
    cases hnone

theorem ofHead_of_notMem (h : newline ∉ bytes) (request : Option (List Char)) :
    ofHead ended request bytes =
      if ended then
        match Utf8.decode? bytes with
        | none => invalidData
        | some text => answer (request.getD text)
      else timedOut := by
  rw [ofHead]
  split
  next line rest hfound =>
    rw [splitLine?_of_notMem h] at hfound
    cases hfound
  next => rfl

theorem ofHead_open (h : newline ∉ bytes) (request : Option (List Char)) :
    ofHead false request bytes = timedOut := by
  rw [ofHead_of_notMem h, if_neg Bool.false_ne_true]

theorem ofHead_ended (h : newline ∉ bytes) {text : List Char} (hbytes : Utf8.encode text = bytes)
    (request : Option (List Char)) : ofHead true request bytes = answer (request.getD text) := by
  rw [ofHead_of_notMem h, if_pos rfl, Utf8.decode?_eq_some_iff.2 hbytes]

theorem ofHead_ended_invalid (h : newline ∉ bytes) (hbytes : ¬Utf8.Valid bytes)
    (request : Option (List Char)) : ofHead true request bytes = invalidData := by
  rw [ofHead_of_notMem h, if_pos rfl, Utf8.decode?_eq_none_iff.2 hbytes]

theorem ofHead_invalid (h : IsTerminated line) (hline : ¬Utf8.Valid line) (rest : List UInt8)
    (request : Option (List Char)) : ofHead ended request (line ++ rest) = invalidData := by
  rw [ofHead_of_line (splitLine?_append h rest), Utf8.decode?_eq_none_iff.2 hline]

theorem ofHead_first (h : IsTerminated line) {text : List Char} (hline : Utf8.encode text = line)
    (rest : List UInt8) : ofHead ended none (line ++ rest) = ofHead ended (some text) rest := by
  rw [ofHead_of_line (splitLine?_append h rest), Utf8.decode?_eq_some_iff.2 hline]

theorem ofHead_header (h : IsTerminated line) (hline : Utf8.Valid line) (rest : List UInt8)
    (request : List Char) :
    ofHead ended (some request) (line ++ rest) =
      if isBlankLine line then answer request else ofHead ended (some request) rest := by
  obtain ⟨text, htext⟩ := hline
  rw [ofHead_of_line (splitLine?_append h rest), Utf8.decode?_eq_some_iff.2 htext]

end Abacus.Health.Ending
