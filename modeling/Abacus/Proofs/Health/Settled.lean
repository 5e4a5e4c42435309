import Abacus.Proofs.Health.Head

namespace Abacus.Health.Ending

open Text

variable {line bytes : List UInt8} {request : Option (List Char)}

theorem answer_ne_timedOut (request : List Char) : answer request ≠ timedOut := nofun

theorem ofHead_ended_ne_timedOut (request : Option (List Char)) (bytes : List UInt8) :
    ofHead true request bytes ≠ timedOut := by
  induction bytes using induction_lines generalizing request with
  | rest bytes hmem =>
    by_cases hvalid : Utf8.Valid bytes
    · obtain ⟨text, htext⟩ := hvalid
      rw [ofHead_ended hmem htext]
      exact answer_ne_timedOut _
    · rw [ofHead_ended_invalid hmem hvalid]
      exact nofun
  | line line rest hline ih =>
    by_cases hvalid : Utf8.Valid line
    · cases request with
      | none =>
        obtain ⟨text, htext⟩ := hvalid
        rw [ofHead_first hline htext]
        exact ih (some text)
      | some request =>
        rw [ofHead_header hline hvalid]
        split
        · exact answer_ne_timedOut request
        · exact ih (some request)
    · rw [ofHead_invalid hline hvalid]
      exact nofun

/-- A head that is settled with some bytes stays so with more of them. -/
theorem ofHead_append (h : ofHead false request bytes ≠ timedOut) (ended : Bool)
    (later : List UInt8) : ofHead ended request (bytes ++ later) = ofHead false request bytes := by
  induction bytes using induction_lines generalizing request with
  | rest bytes hmem =>
    exact absurd (ofHead_open hmem request) h
  | line line rest hline ih =>
    rw [List.append_assoc]
    by_cases hvalid : Utf8.Valid line
    · cases request with
      | none =>
        obtain ⟨text, htext⟩ := hvalid
        rw [ofHead_first hline htext] at h ⊢
        rw [ofHead_first hline htext]
        exact ih h
      | some request =>
        rw [ofHead_header hline hvalid] at h ⊢
        rw [ofHead_header hline hvalid]
        split at h
        next hblank => rw [if_pos hblank, if_pos hblank]
        next hblank =>
          rw [if_neg hblank, if_neg hblank]
          exact ih h
    · rw [ofHead_invalid hline hvalid, ofHead_invalid hline hvalid]

/-- A line that keeps the reading of headers going. -/
def Continues (line : List UInt8) : Prop := isBlankLine line = false ∧ (newline ∈ line → Utf8.Valid line)

theorem continues_of_notMem (h : newline ∉ line) : Continues line := by
  refine ⟨?_, fun hmem => absurd hmem h⟩
  cases hblank : isBlankLine line with
  | false => rfl
  | true => exact absurd (newline_mem_of_isBlankLine hblank) h

theorem forall_continues_of_notMem (h : newline ∉ bytes) : ∀ line ∈ lines bytes, Continues line := by
  by_cases hne : bytes = []
  · simp [hne]
  · simpa [lines_of_notMem h hne] using continues_of_notMem h

theorem headers_timedOut_iff (request : List Char) :
    ofHead false (some request) bytes = timedOut ↔ ∀ line ∈ lines bytes, Continues line := by
  induction bytes using induction_lines with
  | rest bytes hmem =>
    exact iff_of_true (ofHead_open hmem _) (forall_continues_of_notMem hmem)
  | line line rest hline ih =>
    rw [lines_append hline, List.forall_mem_cons, ← ih]
    by_cases hvalid : Utf8.Valid line
    · rw [ofHead_header hline hvalid]
      cases hblank : isBlankLine line with
      | true => simp [Continues, hblank, answer_ne_timedOut]
      | false => simp [Continues, hblank, hvalid]
    · rw [ofHead_invalid hline hvalid]
      simp [Continues, hvalid, hline.newline_mem]

/-- The first line is no header: it may be blank. -/
theorem timedOut_iff :
    ofHead false none bytes = timedOut ↔
      (∀ line ∈ (lines bytes).tail, ¬isBlankLine line) ∧
        ∀ line ∈ lines bytes, newline ∈ line → Utf8.Valid line := by
  induction bytes using induction_lines with
  | rest bytes hmem =>
    have hcontinues := forall_continues_of_notMem hmem
    refine iff_of_true (ofHead_open hmem none) ⟨fun line hline => ?_, fun line hline => ?_⟩
    · simp [(hcontinues line (List.mem_of_mem_tail hline)).1]
    · exact (hcontinues line hline).2
  | line line rest hline _ =>
    rw [lines_append hline, List.tail_cons, List.forall_mem_cons]
    by_cases hvalid : Utf8.Valid line
    · obtain ⟨text, htext⟩ := hvalid
      have hvalid : Utf8.Valid line := ⟨text, htext⟩
      rw [ofHead_first hline htext, headers_timedOut_iff]
      simp [Continues, forall_and, hvalid]
    · rw [ofHead_invalid hline hvalid]
      simp [hvalid, hline.newline_mem]

theorem ofData_of_le {data : List UInt8} (h : maxHead ≤ data.length) (hold : Bool) :
    ofData data hold = ofHead true none (data.take maxHead) := by
  simp [ofData, h]

theorem ofData_of_lt {data : List UInt8} (h : data.length < maxHead) (hold : Bool) :
    ofData data hold = ofHead (!hold) none data := by
  simp [ofData, Nat.not_le.2 h, List.take_of_length_le (Nat.le_of_lt h)]

theorem ofData_append {data : List UInt8} (h : ofData data true ≠ timedOut) (later : List UInt8)
    (hold : Bool) : ofData (data ++ later) hold = ofData data true := by
  by_cases hlength : maxHead ≤ data.length
  · have hmore : maxHead ≤ (data ++ later).length := by
      rw [List.length_append]
      omega
    rw [ofData_of_le hlength, ofData_of_le hmore, List.take_append_of_le_length hlength]
  · have hshort : data.length < maxHead := by omega
    rw [ofData_of_lt hshort] at h ⊢
    -- What is cut off at the limit is cut off from `later`.
    rw [ofData, List.take_append, List.take_of_length_le (Nat.le_of_lt hshort)]
    exact ofHead_append h _ _

/-- Once a connection can be answered, nothing that is sent later matters. That is the case as soon as
the head is full, complete, or not UTF-8, and nothing behind a full head is read. -/
theorem ofData_settled (data : List UInt8) :
    (ofData data true ≠ timedOut →
        ∀ later hold, ofData (data ++ later) hold = ofData data true) ∧
      (ofData data true = timedOut ↔
        data.length < 8192 ∧ (∀ line ∈ (lines data).tail, ¬isBlankLine line) ∧
          ∀ line ∈ lines data, newline ∈ line → Utf8.Valid line) ∧
      ∀ other hold hold', 8192 ≤ data.length → 8192 ≤ other.length →
        data.take 8192 = other.take 8192 → ofData data hold = ofData other hold' := by
  refine ⟨fun h later hold => ofData_append h later hold, ?_, ?_⟩
  · by_cases hlength : data.length < maxHead
    · rw [ofData_of_lt hlength, Bool.not_true, timedOut_iff]
      exact (and_iff_right hlength).symm
    · rw [ofData_of_le (by omega)]
      simp only [ofHead_ended_ne_timedOut, false_iff, not_and]
      exact fun h => absurd h hlength
  · intro other hold hold' hdata hother hsame
    rw [ofData_of_le hdata, ofData_of_le hother]
    exact congrArg _ hsame

/-- A blank first line does not end the head, and bytes behind the limit are not read. -/
theorem ofData_settled_blank_first :
    ofData [newline] true = timedOut ∧ ofData [newline, newline] true ≠ timedOut ∧
      ofData ([newline, newline] ++ [0xff]) false = ofData [newline, newline] true ∧
      8192 ≤ (List.replicate 8192 (0x41 : UInt8)).length ∧
      8192 ≤ (List.replicate 8192 (0x41 : UInt8) ++ [0xff]).length ∧
      (List.replicate 8192 (0x41 : UInt8)).take 8192 =
        (List.replicate 8192 (0x41 : UInt8) ++ [0xff]).take 8192 ∧
      ofData (List.replicate 8192 0x41) true =
        ofData (List.replicate 8192 0x41 ++ [0xff]) false := by
  have hopen : ofData [newline] true = timedOut :=
    (ofData_settled [newline]).2.1.2 ⟨by decide, by decide, by decide +kernel⟩
  have hsettled : ofData [newline, newline] true ≠ timedOut := by decide +kernel
  have hfull : 8192 ≤ (List.replicate 8192 (0x41 : UInt8)).length := List.length_replicate.ge
  have hmore : 8192 ≤ (List.replicate 8192 (0x41 : UInt8) ++ [0xff]).length := by
    rw [List.length_append]
    exact Nat.le_add_right_of_le hfull
  have hsame : (List.replicate 8192 (0x41 : UInt8)).take 8192 =
      (List.replicate 8192 (0x41 : UInt8) ++ [0xff]).take 8192 := by
    rw [List.take_append_of_le_length hfull]
  exact ⟨hopen, hsettled, (ofData_settled _).1 hsettled [0xff] false, hfull, hmore, hsame,
    (ofData_settled _).2.2 _ true false hfull hmore hsame⟩

end Abacus.Health.Ending
