import Abacus.Token.Numeral

namespace Abacus

namespace Text

/-- The text does not start with such a character. -/
def Clear (p : Char → Bool) (text : List Char) : Prop := ∀ c ∈ text.head?, p c = false

variable {p q : Char → Bool} {w text rest : List Char}

@[simp] theorem clear_nil : Clear p [] := by
  intro c hc
  cases hc

@[simp] theorem clear_cons {c : Char} : Clear p (c :: text) ↔ p c = false := by
  simp [Clear]

theorem clear_of_forall (h : ∀ c ∈ text, p c = false) : Clear p text :=
  fun c hc => h c (List.mem_of_mem_head? hc)

theorem Clear.mono (h : Clear p text) (himp : ∀ c, q c → p c) : Clear q text := by
  intro c hc
  have hp := h c hc
  cases hq : q c with
  | false => rfl
  | true => exact absurd (himp c hq) (by rw [hp]; decide)

theorem Clear.append (hw : Clear p w) (hrest : Clear p rest) : Clear p (w ++ rest) := by
  cases w with
  | nil => exact hrest
  | cons c w => exact hw

theorem Clear.append_of_ne_nil (hw : Clear p w) (hne : w ≠ []) : Clear p (w ++ rest) := by
  cases w with
  | nil => exact absurd rfl hne
  | cons c w => exact hw

theorem clear_dropWhile : Clear p (text.dropWhile p) := by
  intro c hc
  have hhead := List.head?_dropWhile_not p text
  rw [hc] at hhead
  simpa using hhead

theorem takeWhile_append (hw : ∀ c ∈ w, p c) (hrest : Clear p rest) :
    (w ++ rest).takeWhile p = w := by
  rw [List.takeWhile_append_of_pos hw]
  cases rest with
  | nil => exact List.append_nil w
  | cons c rest =>
    rw [List.takeWhile_cons_of_neg (by rw [clear_cons.1 hrest]; decide)]
    exact List.append_nil w

theorem dropWhile_append (hw : ∀ c ∈ w, p c) (hrest : Clear p rest) :
    (w ++ rest).dropWhile p = rest := by
  rw [List.dropWhile_append_of_pos hw]
  cases rest with
  | nil => rfl
  | cons c rest => exact List.dropWhile_cons_of_neg (by rw [clear_cons.1 hrest]; decide)

theorem takeWhile_of_clear (h : Clear p text) : text.takeWhile p = [] :=
  takeWhile_append (w := []) (by simp) h

theorem dropWhile_of_clear (h : Clear p text) : text.dropWhile p = text :=
  dropWhile_append (w := []) (by simp) h

theorem isDigit_of_mem_toDigits {n : Nat} : ∀ c ∈ Nat.toDigits 10 n, c.isDigit :=
  fun _ hc => Nat.isDigit_of_mem_toDigits (by decide) (by decide) hc

/-- The digits of a number start with a zero only if it is zero. -/
theorem head?_toDigits_ne {n : Nat} (h : n ≠ 0) : (Nat.toDigits 10 n).head? ≠ some '0' := by
  induction n using Nat.strongRecOn with
  | ind n ih =>
    by_cases hsmall : n < 10
    · rw [Nat.toDigits_of_lt_base hsmall]
      revert h
      clear ih
      decide +revert
    · have hquotient : n / 10 ≠ 0 := by omega
      have hhead := ih (n / 10) (by omega) hquotient
      rw [Nat.toDigits_of_base_le (by decide) (by omega), List.head?_append]
      cases hdigits : (Nat.toDigits 10 (n / 10)).head? with
      | none => exact absurd (List.head?_eq_none_iff.1 hdigits) Nat.toDigits_ne_nil
      | some c =>
        rw [hdigits] at hhead
        exact hhead

end Text

open Text

/-- A reader that takes a part of the front and, of what follows, heeds no more than whether it
starts with such a character. -/
def Local {α : Type} (heeds : Char → Bool) (read : List Char → α × List Char) (text w : List Char) :
    Prop :=
  text = w ++ (read text).2 ∧ ∀ rest, Clear heeds rest → read (w ++ rest) = ((read text).1, rest)

namespace Numeral

/-- The characters that would go on with a numeral. -/
def resumes (c : Char) : Bool := c.isDigit || c == '.' || c == 'e' || c == 'E'

/-- The characters that occur in numerals. -/
def occurs (c : Char) : Bool := resumes c || c == '+' || c == '-'

theorem occurs_of_isDigit {c : Char} (h : c.isDigit) : occurs c := by
  simp [occurs, resumes, h]

theorem digits_append {w rest : List Char} (hw : ∀ c ∈ w, c.isDigit) (hrest : Clear Char.isDigit rest) :
    digits (w ++ rest) = w := takeWhile_append hw hrest

theorem afterDigits_append {w rest : List Char} (hw : ∀ c ∈ w, c.isDigit)
    (hrest : Clear Char.isDigit rest) : afterDigits (w ++ rest) = rest := dropWhile_append hw hrest

theorem isDigit_of_mem_digits {text : List Char} : ∀ c ∈ digits text, c.isDigit :=
  List.all_eq_true.1 List.all_takeWhile

theorem digits_append_afterDigits (text : List Char) : digits text ++ afterDigits text = text :=
  List.takeWhile_append_dropWhile

theorem scanFraction_of_clear {rest : List Char} (h : Clear (· == '.') rest) :
    scanFraction rest = (none, rest) := by
  unfold scanFraction
  split
  · exact absurd (clear_cons.1 h) (by decide)
  · rfl

theorem scanFraction_local (text : List Char) :
    ∃ w, Local (fun c => c.isDigit || c == '.') scanFraction text w ∧ Clear (· != '.') w ∧
      ∀ c ∈ w, occurs c := by
  by_cases hpoint : ∃ rest, text = '.' :: rest
  · obtain ⟨rest, rfl⟩ := hpoint
    refine ⟨'.' :: digits rest, ⟨?_, ?_⟩, by simp, ?_⟩
    · exact congrArg ('.' :: ·) (digits_append_afterDigits rest).symm
    · intro after hafter
      have hdigits : Clear Char.isDigit after := hafter.mono fun c hc => by simp [hc]
      simp only [scanFraction, List.cons_append, digits_append isDigit_of_mem_digits hdigits,
        afterDigits_append isDigit_of_mem_digits hdigits]
    · intro c hc
      rcases List.mem_cons.1 hc with rfl | hdigit
      · rfl
      · exact occurs_of_isDigit (isDigit_of_mem_digits c hdigit)
  · have hclear : Clear (· == '.') text := by
      cases text with
      | nil => exact clear_nil
      | cons c text =>
        rw [clear_cons]
        exact beq_false_of_ne fun hc => hpoint ⟨text, by rw [hc]⟩
    refine ⟨[], ⟨?_, ?_⟩, clear_nil, by simp⟩
    · rw [scanFraction_of_clear hclear]
      rfl
    · intro after hafter
      rw [scanFraction_of_clear hclear, List.nil_append,
        scanFraction_of_clear (hafter.mono fun c hc => by simp [hc])]

theorem scanSign_of_clear {rest : List Char} (h : Clear (fun c => c == '+' || c == '-') rest) :
    scanSign rest = (false, rest) := by
  unfold scanSign
  split
  · exact absurd (clear_cons.1 h) (by decide)
  · exact absurd (clear_cons.1 h) (by decide)
  · rfl

/-- A sign is read on its own, whatever follows but another sign where there is none. -/
theorem scanSign_local (text : List Char) :
    ∃ w, Local (fun c => c == '+' || c == '-') scanSign text w ∧ ∀ c ∈ w, occurs c := by
  unfold Local
  unfold scanSign
  split
  · exact ⟨['+'], ⟨rfl, fun _ _ => rfl⟩, by simp; rfl⟩
  · exact ⟨['-'], ⟨rfl, fun _ _ => rfl⟩, by simp; rfl⟩
  · exact ⟨[], ⟨rfl, fun rest hrest => scanSign_of_clear hrest⟩, by simp⟩

theorem scanExponent_of_clear {rest : List Char} (h : Clear (fun c => c == 'e' || c == 'E') rest) :
    scanExponent rest = (none, rest) := by
  cases rest with
  | nil => rfl
  | cons c rest =>
    have hmark := clear_cons.1 h
    simp only [Bool.or_eq_false_iff, beq_eq_false_iff_ne] at hmark
    simp [scanExponent, hmark]

/-- An exponent is read up to the end of its digits. -/
theorem scanExponent_mark {mark : Char} (hmark : mark = 'e' ∨ mark = 'E') (sign ds rest : List Char)
    {negative : Bool} (hsign : scanSign (sign ++ ds ++ rest) = (negative, ds ++ rest)) (hne : ds ≠ [])
    (hds : ∀ c ∈ ds, c.isDigit) (hrest : Clear Char.isDigit rest) :
    scanExponent (mark :: (sign ++ ds ++ rest)) =
      (some (if negative then -(Nat.ofDigitChars 10 ds 0 : Int) else Nat.ofDigitChars 10 ds 0),
        rest) := by
  have hempty : ds.isEmpty = false := by simpa using hne
  simp only [scanExponent, hsign, digits_append hds hrest, afterDigits_append hds hrest, hempty]
  rcases hmark with rfl | rfl <;> simp

/-- Digits that no point follows are all of the numeral but its exponent. -/
theorem scan_digits {whole rest : List Char} (hwhole : ∀ c ∈ whole, c.isDigit)
    (hrest : Clear (fun c => c.isDigit || c == '.') rest) :
    scan (whole ++ rest) = (⟨whole, none, (scanExponent rest).1⟩, (scanExponent rest).2) := by
  have hdigit : Clear Char.isDigit rest := hrest.mono fun c hc => by simp [hc]
  have hpoint : Clear (· == '.') rest := hrest.mono fun c hc => by simp [hc]
  rw [scan, digits_append hwhole hdigit, afterDigits_append hwhole hdigit, scanFraction_of_clear hpoint]

/-- So are digits with a point among them. -/
theorem scan_point {whole fraction rest : List Char} (hwhole : ∀ c ∈ whole, c.isDigit)
    (hfraction : ∀ c ∈ fraction, c.isDigit) (hrest : Clear Char.isDigit rest) :
    scan (whole ++ '.' :: (fraction ++ rest)) =
      (⟨whole, some fraction, (scanExponent rest).1⟩, (scanExponent rest).2) := by
  have hpoint : Clear Char.isDigit ('.' :: (fraction ++ rest)) := clear_cons.2 rfl
  rw [scan, digits_append hwhole hpoint, afterDigits_append hwhole hpoint, scanFraction,
    digits_append hfraction hrest, afterDigits_append hfraction hrest]

theorem ne_of_isDigit {c d : Char} (hc : c.isDigit) (hd : d.isDigit = false) : c ≠ d := by
  rintro rfl
  rw [hd] at hc
  cases hc

/-- Digits have no sign in front of them. -/
theorem clear_sign_of_digits {ds rest : List Char} (hds : ∀ c ∈ ds, c.isDigit) (hne : ds ≠ []) :
    Clear (fun c => c == '+' || c == '-') (ds ++ rest) := by
  cases ds with
  | nil => exact absurd rfl hne
  | cons d ds =>
    have hd := hds d List.mem_cons_self
    have hplus : d ≠ '+' := ne_of_isDigit hd rfl
    have hminus : d ≠ '-' := ne_of_isDigit hd rfl
    simp [hplus, hminus]

/-- An exponent, or that there is none, is read from a front of the text whatever follows it. -/
def ReadsExponent (text : List Char) : Prop :=
  ∃ w, Local (fun c => c.isDigit || c == 'e' || c == 'E') scanExponent text w ∧
    Clear (fun c => !(c == 'e' || c == 'E')) w ∧ ∀ c ∈ w, occurs c

theorem readsExponent_of_none {text : List Char} (h : scanExponent text = (none, text)) :
    ReadsExponent text := by
  refine ⟨[], ⟨by rw [h]; rfl, ?_⟩, clear_nil, by simp⟩
  intro rest hrest
  rw [h, List.nil_append]
  refine scanExponent_of_clear (hrest.mono fun c hc => ?_)
  rw [Bool.or_assoc, hc, Bool.or_true]

theorem readsExponent_of_mark {mark : Char} (hmark : mark = 'e' ∨ mark = 'E') (text : List Char) :
    ReadsExponent (mark :: text) := by
  obtain ⟨sign, ⟨htext, hsign⟩, hoccurs⟩ := scanSign_local text
  generalize hsigned : scanSign text = signed at htext hsign
  obtain ⟨negative, unsigned⟩ := signed
  by_cases hempty : digits unsigned = []
  · apply readsExponent_of_none
    simp [scanExponent, hsigned, hempty]
  · have hscan (rest : List Char) (hrest : Clear Char.isDigit rest) :=
      scanExponent_mark hmark sign (digits unsigned) rest
        (by
          rw [List.append_assoc]
          exact hsign _ (clear_sign_of_digits isDigit_of_mem_digits hempty))
        hempty isDigit_of_mem_digits hrest
    have hall : mark :: text = mark :: (sign ++ digits unsigned ++ afterDigits unsigned) := by
      rw [List.append_assoc, digits_append_afterDigits, ← htext]
    have hread := hscan (afterDigits unsigned) clear_dropWhile
    rw [← hall] at hread
    refine ⟨mark :: (sign ++ digits unsigned), ⟨?_, ?_⟩, ?_, ?_⟩
    · rw [hread, hall]
      rfl
    · intro rest hrest
      rw [hread]
      refine hscan rest (hrest.mono fun c hc => ?_)
      rw [hc]
      rfl
    · rw [clear_cons]
      rcases hmark with rfl | rfl <;> rfl
    · intro c hc
      rw [List.mem_cons, List.mem_append] at hc
      rcases hc with rfl | hc | hc
      · rcases hmark with rfl | rfl <;> rfl
      · exact hoccurs c hc
      · exact occurs_of_isDigit (isDigit_of_mem_digits c hc)

theorem scanExponent_local (text : List Char) : ReadsExponent text := by
  cases text with
  | nil => exact readsExponent_of_none rfl
  | cons mark text =>
    by_cases hmark : mark = 'e' ∨ mark = 'E'
    · exact readsExponent_of_mark hmark text
    · apply readsExponent_of_none
      apply scanExponent_of_clear
      rw [clear_cons, Bool.or_eq_false_iff, beq_eq_false_iff_ne, beq_eq_false_iff_ne]
      exact not_or.1 hmark

/-- No fraction goes on with what starts with the mark of an exponent, or with what ends a numeral. -/
theorem clear_behind_fraction {x rest : List Char} (hx : Clear (fun c => !(c == 'e' || c == 'E')) x)
    (hrest : Clear resumes rest) : Clear (fun c => c.isDigit || c == '.') (x ++ rest) := by
  apply Clear.append
  · apply hx.mono
    intro c hc
    rcases Bool.or_eq_true_iff.1 hc with hdigit | hpoint
    · have hlower : c ≠ 'e' := ne_of_isDigit hdigit rfl
      have hupper : c ≠ 'E' := ne_of_isDigit hdigit rfl
      simp [hlower, hupper]
    · rw [beq_iff_eq.1 hpoint]
      rfl
  · apply hrest.mono
    intro c hc
    simp [resumes, hc]

theorem clear_behind_digits {f rest : List Char} (hf : Clear (· != '.') f)
    (hrest : Clear (fun c => c.isDigit || c == '.') rest) : Clear Char.isDigit (f ++ rest) := by
  apply Clear.append
  · apply hf.mono
    intro c hc
    have hpoint : c ≠ '.' := ne_of_isDigit hc rfl
    simp [hpoint]
  · apply hrest.mono
    intro c hc
    rw [hc]
    rfl

/-- A numeral is read to its end, which any character is that cannot go on with it. -/
theorem scan_local (text : List Char) :
    ∃ w, Local resumes scan text w ∧ ∀ c ∈ w, occurs c := by
  obtain ⟨f, ⟨hf, hfraction⟩, hfhead, hfoccurs⟩ := scanFraction_local (afterDigits text)
  generalize hfound : scanFraction (afterDigits text) = found at hf hfraction
  obtain ⟨fraction, afterFraction⟩ := found
  obtain ⟨x, ⟨hx, hexponent⟩, hxhead, hxoccurs⟩ := scanExponent_local afterFraction
  have hscan : scan text =
      (⟨digits text, fraction, (scanExponent afterFraction).1⟩, (scanExponent afterFraction).2) := by
    simp only [scan, hfound]
  refine ⟨digits text ++ f ++ x, ⟨?_, ?_⟩, ?_⟩
  · rw [hscan, List.append_assoc, List.append_assoc, ← hx, ← hf, digits_append_afterDigits]
  · intro rest hrest
    have hpoint := clear_behind_fraction hxhead hrest
    have hdigit := clear_behind_digits hfhead hpoint
    rw [hscan, List.append_assoc, List.append_assoc, scan,
      digits_append isDigit_of_mem_digits hdigit, afterDigits_append isDigit_of_mem_digits hdigit,
      hfraction _ hpoint]
    dsimp only
    rw [hexponent _ (hrest.mono fun c hc => ?_)]
    simp only [resumes, Bool.or_eq_true] at hc ⊢
    rcases hc with (hdigit | hlower) | hupper
    · exact .inl (.inl (.inl hdigit))
    · exact .inl (.inr hlower)
    · exact .inr hupper
  · intro c hc
    rw [List.mem_append, List.mem_append] at hc
    rcases hc with (hc | hc) | hc
    · exact occurs_of_isDigit (isDigit_of_mem_digits c hc)
    · exact hfoccurs c hc
    · exact hxoccurs c hc

end Numeral

end Abacus
