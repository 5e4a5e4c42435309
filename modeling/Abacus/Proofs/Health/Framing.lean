import Abacus.Health.Reply
import Abacus.Proofs.Text.Trim
import Abacus.Proofs.Text.Utf8

namespace Abacus.Health.Reply

open Text

def lineBreak : List Char := ['\r', '\n']

def blankLine : List Char := lineBreak ++ lineBreak

/-- A text is cut where a mark stands in it for the first time. -/
structure CutAt (mark text front rest : List Char) : Prop where
  eq_append : text = front ++ mark ++ rest
  first : ∀ earlier later, text = earlier ++ mark ++ later → front.length ≤ earlier.length

/-- A text is some lines, with a line break between each two. -/
structure HasLines (text : List Char) (ls : List (List Char)) : Prop where
  joined : lineBreak.intercalate ls = text
  single : ∀ l ∈ ls, '\r' ∉ l ∧ '\n' ∉ l

def number? (digits : List Char) : Option Nat :=
  if digits ≠ [] ∧ digits.all Char.isDigit then some (Nat.ofDigitChars 10 digits 0) else none

/-- The status and the reason that a first line tells. -/
def statusOfLine? (line : List Char) : Option (Nat × List Char) := do
  let text ← after? "HTTP/1.1 ".toList line
  let status ← number? (text.takeWhile Char.isDigit)
  let reason ← after? [' '] (text.dropWhile Char.isDigit)
  return (status, reason)

/-- What a field is called is in front of its colon. The case of letters does not count. -/
def isField (name : String) (line : List Char) : Bool :=
  (line.takeWhile (· != ':')).map Char.toLower == name.toList.map Char.toLower

/-- The number that a field holds behind its colon. -/
def numberOfField? (line : List Char) : Option Nat := number? (trim (line.dropWhile (· != ':')).tail)

variable {text front rest body : List Char} {ls : List (List Char)} {reply other : Reply}

theorem CutAt.unique {mark front' rest' : List Char} (h : CutAt mark text front rest)
    (h' : CutAt mark text front' rest') : front = front' ∧ rest = rest' := by
  have hlength : front.length = front'.length :=
    Nat.le_antisymm (h.first _ _ h'.eq_append) (h'.first _ _ h.eq_append)
  have htext := h.eq_append.symm.trans h'.eq_append
  rw [List.append_assoc, List.append_assoc] at htext
  obtain ⟨hfront, hbehind⟩ := List.append_inj htext hlength
  exact ⟨hfront, List.append_cancel_left hbehind⟩

/-- What starts with a character that is not in a text starts behind it. -/
theorem exists_behind {c : Char} {l earlier s t : List Char} (hc : c ∉ l)
    (h : l ++ s = earlier ++ c :: t) : ∃ between, earlier = l ++ between ∧ s = between ++ c :: t := by
  rcases List.append_eq_append_iff.1 h with ⟨between, hearlier, hs⟩ | ⟨inside, hl, hinside⟩
  · exact ⟨between, hearlier, hs⟩
  · cases inside with
    | nil => exact ⟨[], by simpa using hl.symm, by simpa using hinside.symm⟩
    | cons d inside =>
      obtain rfl : c = d := (List.cons.inj hinside).1
      exact absurd (by simp [hl]) hc

theorem intercalate_cons_cons (l next : List Char) (ls : List (List Char)) :
    lineBreak.intercalate (l :: next :: ls) =
      l ++ '\r' :: '\n' :: lineBreak.intercalate (next :: ls) := by
  simp [List.intercalate, lineBreak]

theorem head?_intercalate_ne {next : List Char} (hnext : next ≠ [] ∧ '\r' ∉ next) (rest : List Char) :
    (lineBreak.intercalate (next :: ls) ++ rest).head? ≠ some '\r' := by
  obtain ⟨c, next, rfl⟩ := List.exists_cons_of_ne_nil hnext.1
  have hc : c ≠ '\r' := fun h => hnext.2 (h ▸ List.mem_cons_self)
  cases ls with
  | nil => simpa [List.intercalate] using hc
  | cons => simpa [intercalate_cons_cons] using hc

/-- No two line breaks follow each other between lines that are not empty. -/
theorem length_le_of_blankLine (hne : ls ≠ []) (hls : ∀ l ∈ ls, l ≠ [] ∧ '\r' ∉ l)
    {earlier later : List Char}
    (h : lineBreak.intercalate ls ++ blankLine ++ body = earlier ++ blankLine ++ later) :
    (lineBreak.intercalate ls).length ≤ earlier.length := by
  induction ls generalizing earlier with
  | nil => exact absurd rfl hne
  | cons l ls ih =>
    obtain ⟨hl, hothers⟩ := List.forall_mem_cons.1 hls
    cases ls with
    | nil =>
      have hjoined : lineBreak.intercalate [l] = l := by simp [List.intercalate]
      rw [hjoined, List.append_assoc, List.append_assoc] at h
      obtain ⟨between, rfl, -⟩ := exists_behind hl.2 h
      rw [hjoined, List.length_append]
      exact Nat.le_add_right _ _
    | cons next ls =>
      have hnext := (List.forall_mem_cons.1 hothers).1
      rw [intercalate_cons_cons, List.append_assoc, List.append_assoc, List.append_assoc] at h
      obtain ⟨between, rfl, hbehind⟩ := exists_behind hl.2 h
      rw [List.cons_append, List.cons_append, ← List.append_assoc] at hbehind
      -- the line break behind the first line is either the first half of the blank line, and then the
      -- next line starts with a line break, or in front of it
      match between, hbehind with
      | [], hbehind =>
        have hrest : lineBreak.intercalate (next :: ls) ++ (blankLine ++ body) = '\r' :: '\n' :: later := by
          simpa [blankLine, lineBreak] using hbehind
        exact absurd (congrArg List.head? hrest) (head?_intercalate_ne hnext _)
      | [_], hbehind => simp at hbehind
      | _ :: _ :: between, hbehind =>
        obtain ⟨-, -, hrest⟩ : _ ∧ _ ∧ lineBreak.intercalate (next :: ls) ++ blankLine ++ body =
            between ++ blankLine ++ later := by
          simpa [blankLine, lineBreak] using hbehind
        have hle := ih (List.cons_ne_nil _ _) hothers hrest
        simp only [intercalate_cons_cons, List.length_append, List.length_cons] at hle ⊢
        omega

theorem cutAt_blankLine (hlines : HasLines text ls) (hne : ls ≠ []) (hls : ∀ l ∈ ls, l ≠ [])
    (body : List Char) : CutAt blankLine (text ++ blankLine ++ body) text body := by
  refine ⟨rfl, fun earlier later h => ?_⟩
  rw [← hlines.joined] at h ⊢
  exact length_le_of_blankLine hne (fun l hl => ⟨hls l hl, (hlines.single l hl).1⟩) h

def statusLine (reply : Reply) : List Char :=
  "HTTP/1.1 ".toList ++ (Nat.toDigits 10 reply.status ++ ' ' :: reply.reason.toList)

def lengthField (body : String) : List Char :=
  "Content-Length: ".toList ++ Nat.toDigits 10 body.utf8ByteSize

def head (reply : Reply) : List (List Char) :=
  [statusLine reply, "Content-Type: application/json".toList, lengthField reply.body,
    "Connection: close".toList]

theorem toList_encode (reply : Reply) :
    reply.encode.toList = lineBreak.intercalate (head reply) ++ blankLine ++ reply.body.toList := by
  have htype : "Content-Type: application/json\r\n".toList =
      "Content-Type: application/json".toList ++ lineBreak := by rfl
  have hclose : "Connection: close\r\n".toList = "Connection: close".toList ++ lineBreak := by rfl
  have hbreak : "\r\n".toList = lineBreak := by rfl
  have hspace : " ".toList = [' '] := by rfl
  unfold encode
  simp only [String.toList_append, Nat.toList_repr, htype, hclose, hbreak, hspace]
  unfold head statusLine lengthField
  generalize "HTTP/1.1 ".toList = version
  generalize "Content-Type: application/json".toList = type
  generalize "Content-Length: ".toList = length
  generalize "Connection: close".toList = close
  simp [List.intercalate, blankLine]

theorem number?_toDigits (n : Nat) : number? (Nat.toDigits 10 n) = some n := by
  have hall : (Nat.toDigits 10 n).all Char.isDigit :=
    List.all_eq_true.2 isDigit_of_mem_toDigits
  rw [number?, if_pos ⟨Nat.toDigits_ne_nil, hall⟩, Nat.ofDigitChars_ten_toDigits]

theorem statusOfLine?_statusLine (reply : Reply) :
    statusOfLine? (statusLine reply) = some (reply.status, reply.reason.toList) := by
  have hspace : Clear Char.isDigit (' ' :: reply.reason.toList) := clear_cons.2 rfl
  have hversion : after? "HTTP/1.1 ".toList (statusLine reply) =
      some (Nat.toDigits 10 reply.status ++ ' ' :: reply.reason.toList) :=
    after?_eq_some_iff.2 rfl
  have hreason : after? [' '] (' ' :: reply.reason.toList) = some reply.reason.toList :=
    after?_eq_some_iff.2 rfl
  rw [statusOfLine?, hversion]
  simp only [Option.bind_eq_bind, Option.bind_some]
  rw [takeWhile_append isDigit_of_mem_toDigits hspace, dropWhile_append isDigit_of_mem_toDigits hspace,
    number?_toDigits, hreason]
  rfl

/-- What a field is called and what it holds, on the two sides of its first colon. -/
theorem lengthField_eq (body : String) :
    lengthField body = "Content-Length".toList ++ ':' :: ' ' :: Nat.toDigits 10 body.utf8ByteSize := by
  have hname (digits : List Char) :
      "Content-Length: ".toList ++ digits = "Content-Length".toList ++ ':' :: ' ' :: digits := by rfl
  exact hname _

theorem isField_lengthField (body : String) : isField "Content-Length" (lengthField body) := by
  have hname : ∀ c ∈ "Content-Length".toList, (c != ':') = true := by simp
  rw [isField, lengthField_eq, takeWhile_append hname (clear_cons.2 rfl)]
  exact beq_self_eq_true _

theorem numberOfField?_lengthField (body : String) :
    numberOfField? (lengthField body) = some body.utf8ByteSize := by
  have hname : ∀ c ∈ "Content-Length".toList, (c != ':') = true := by simp
  have hvisible : ∀ c ∈ Nat.toDigits 10 body.utf8ByteSize, isBlank c = false :=
    fun c hc => isBlank_of_isDigit (isDigit_of_mem_toDigits c hc)
  rw [numberOfField?, lengthField_eq, dropWhile_append hname (clear_cons.2 rfl), List.tail_cons,
    trim_cons (by decide), trim_of_forall Nat.toDigits_ne_nil hvisible, number?_toDigits]

theorem isField_statusLine (reply : Reply) : isField "Content-Length" (statusLine reply) = false := by
  have hname : ∃ behind, statusLine reply = 'H' :: behind := ⟨_, rfl⟩
  obtain ⟨behind, hline⟩ := hname
  rw [isField, hline, List.takeWhile_cons_of_pos (by decide), List.map_cons, beq_eq_false_iff_ne]
  intro h
  exact absurd (List.cons.inj h).1 (by decide)

theorem filter_head (reply : Reply) :
    (head reply).filter (isField "Content-Length") = [lengthField reply.body] := by
  have htype : isField "Content-Length" "Content-Type: application/json".toList = false := by decide
  have hclose : isField "Content-Length" "Connection: close".toList = false := by decide
  simp only [head, List.filter_cons, List.filter_nil, isField_statusLine, isField_lengthField, htype, hclose,
    Bool.false_eq_true, if_false, if_true]

theorem hasLines_head (hreason : ∀ c ∈ reply.reason.toList, c ≠ '\r' ∧ c ≠ '\n') :
    HasLines (lineBreak.intercalate (head reply)) (head reply) := by
  have hdigits (n : Nat) : ∀ c ∈ Nat.toDigits 10 n, c ≠ '\r' ∧ c ≠ '\n' := by
    intro c hc
    have hdigit := isDigit_of_mem_toDigits c hc
    exact ⟨by rintro rfl; exact absurd hdigit (by decide), by rintro rfl; exact absurd hdigit (by decide)⟩
  have hversion : ∀ c ∈ "HTTP/1.1 ".toList, c ≠ '\r' ∧ c ≠ '\n' := by simp
  have htype : ∀ c ∈ "Content-Type: application/json".toList, c ≠ '\r' ∧ c ≠ '\n' := by simp
  have hlength : ∀ c ∈ "Content-Length: ".toList, c ≠ '\r' ∧ c ≠ '\n' := by simp
  have hclose : ∀ c ∈ "Connection: close".toList, c ≠ '\r' ∧ c ≠ '\n' := by simp
  have hline : ∀ l ∈ head reply, ∀ c ∈ l, c ≠ '\r' ∧ c ≠ '\n' := by
    refine List.forall_mem_cons.2 ⟨?_, List.forall_mem_cons.2 ⟨htype, List.forall_mem_cons.2 ⟨?_,
      List.forall_mem_singleton.2 hclose⟩⟩⟩
    · exact List.forall_mem_append.2 ⟨hversion, List.forall_mem_append.2
        ⟨hdigits _, List.forall_mem_cons.2 ⟨by decide, hreason⟩⟩⟩
    · exact List.forall_mem_append.2 ⟨hlength, hdigits _⟩
  exact ⟨rfl, fun l hl => ⟨fun hr => (hline l hl _ hr).1 rfl, fun hn => (hline l hl _ hn).2 rfl⟩⟩

theorem cutAt_encode (hreason : ∀ c ∈ reply.reason.toList, c ≠ '\r' ∧ c ≠ '\n') :
    CutAt blankLine reply.encode.toList (lineBreak.intercalate (head reply)) reply.body.toList := by
  rw [toList_encode]
  refine cutAt_blankLine (hasLines_head hreason) (List.cons_ne_nil _ _) (fun l hl => ?_) _
  have hne : ∀ l ∈ head reply, ∃ c behind, l = c :: behind := by
    refine List.forall_mem_cons.2 ⟨⟨_, _, rfl⟩, List.forall_mem_cons.2 ⟨⟨_, _, rfl⟩,
      List.forall_mem_cons.2 ⟨⟨_, _, rfl⟩, List.forall_mem_singleton.2 ⟨_, _, rfl⟩⟩⟩⟩
  obtain ⟨c, behind, rfl⟩ := hne l hl
  exact List.cons_ne_nil _ _

/-- The first of some lines is what is in front of the first line break. -/
theorem takeWhile_intercalate {l next : List Char} (hl : '\r' ∉ l) :
    (lineBreak.intercalate (l :: next :: ls)).takeWhile (· != '\r') = l := by
  have hother : ∀ c ∈ l, (c != '\r') = true := fun c hc => bne_iff_ne.2 fun h => hl (h ▸ hc)
  rw [intercalate_cons_cons, takeWhile_append hother (clear_cons.2 rfl)]

/-- Nothing of a reply is lost when it is sent. -/
theorem eq_of_encode_eq (hreason : ∀ c ∈ reply.reason.toList, c ≠ '\r' ∧ c ≠ '\n')
    (hother : ∀ c ∈ other.reason.toList, c ≠ '\r' ∧ c ≠ '\n')
    (h : other.encode.toList = reply.encode.toList) : other = reply := by
  have hcut := cutAt_encode hother
  rw [h] at hcut
  obtain ⟨hhead, hbody⟩ := hcut.unique (cutAt_encode hreason)
  have hfirst : statusLine other = statusLine reply := by
    have htake := congrArg (List.takeWhile (· != '\r')) hhead
    rwa [head, head, takeWhile_intercalate ((hasLines_head hother).single _ List.mem_cons_self).1,
      takeWhile_intercalate ((hasLines_head hreason).single _ List.mem_cons_self).1] at htake
  have hread := statusOfLine?_statusLine other
  rw [hfirst, statusOfLine?_statusLine, Option.some.injEq, Prod.mk.injEq, String.toList_inj] at hread
  cases other
  cases reply
  rw [mk.injEq]
  exact ⟨hread.1.symm, hread.2.symm, String.toList_inj.1 hbody⟩

/-- Cutting a reply at its first blank line gives lines that tell status, reason and length, and the body
behind them. Two different replies are never sent as the same bytes. -/
theorem encode_frames (reply : Reply) (hreason : ∀ c ∈ reply.reason.toList, c ≠ '\r' ∧ c ≠ '\n') :
    (∃ text rest first fields, CutAt blankLine reply.encode.toList text rest ∧
      HasLines text (first :: fields) ∧
      statusOfLine? first = some (reply.status, reply.reason.toList) ∧
      (∃ field, (first :: fields).filter (isField "Content-Length") = [field] ∧
        numberOfField? field = some (Utf8.encode rest).length) ∧
      "Connection: close".toList ∈ first :: fields ∧
      rest = reply.body.toList) ∧
    ∀ other : Reply, (∀ c ∈ other.reason.toList, c ≠ '\r' ∧ c ≠ '\n') → other ≠ reply →
      Utf8.encode other.encode.toList ≠ Utf8.encode reply.encode.toList := by
  refine ⟨⟨lineBreak.intercalate (head reply), reply.body.toList, statusLine reply, (head reply).tail,
    cutAt_encode hreason, hasLines_head hreason, statusOfLine?_statusLine reply,
    ⟨lengthField reply.body, filter_head reply, ?_⟩, ?_, Eq.refl _⟩, fun other hother hne hbytes => ?_⟩
  · rw [numberOfField?_lengthField, Utf8.length_encode, utf8ByteSize_eq_size]
  · exact List.mem_cons_of_mem _ (List.mem_cons_of_mem _ (List.mem_cons_of_mem _ List.mem_cons_self))
  · exact hne (eq_of_encode_eq hreason hother (Utf8.encode_injective hbytes))

theorem encode_frames_header_in_body :
    (∀ c ∈ "Multi Status".toList, c ≠ '\r' ∧ c ≠ '\n') ∧
    (∃ text, CutAt blankLine (Reply.encode ⟨207, "Multi Status", "\r\n\r\nContent-Length: 2\r\n\r\né"⟩).toList text
      "\r\n\r\nContent-Length: 2\r\n\r\né".toList) ∧
    Utf8.encode (Reply.encode ⟨207, "Multi Status", "\r\n\r\nContent-Length: 2\r\n\r\nè"⟩).toList ≠
      Utf8.encode (Reply.encode ⟨207, "Multi Status", "\r\n\r\nContent-Length: 2\r\n\r\né"⟩).toList := by
  have hreason : ∀ c ∈ "Multi Status".toList, c ≠ '\r' ∧ c ≠ '\n' := by simp
  obtain ⟨⟨text, rest, -, -, hcut, -, -, -, -, hrest⟩, hdistinct⟩ :=
    encode_frames ⟨207, "Multi Status", "\r\n\r\nContent-Length: 2\r\n\r\né"⟩ hreason
  rw [hrest] at hcut
  exact ⟨hreason, ⟨text, hcut⟩, hdistinct _ hreason (by decide)⟩

end Abacus.Health.Reply
