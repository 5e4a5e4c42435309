import Abacus.Proofs.Address.Digits

namespace Abacus.Address

open Text IPv6

variable {c : Char} {text rest after : List Char} {groups : List UInt16} {room : Nat}

@[simp] theorem skip?_cons (c : Char) (text : List Char) : skip? c (c :: text) = some text := if_pos rfl

theorem skip?_of_clear (h : Clear (· == c) text) : skip? c text = none := by
  cases text with
  | nil => rfl
  | cons first text =>
    rw [clear_cons, beq_eq_false_iff_ne] at h
    exact if_neg h

theorem readIPv4_text (host : IPv4) (hrest : Clear Char.isDigit rest) :
    readIPv4 (host.text ++ rest) = some (host, rest) := by
  have hdot (text : List Char) : Clear Char.isDigit ('.' :: text) := clear_cons.2 rfl
  simp only [readIPv4, IPv4.text, List.append_assoc, List.cons_append, readOctet_toDigits _ (hdot _),
    readOctet_toDigits _ hrest, skip?_cons, Option.bind_eq_bind, Option.bind_some, Option.pure_def]

/-- A short host has a dot behind its first digits. -/
theorem readIPv4_of_clear (h : Clear (· == '.') (text.dropWhile Char.isDigit)) : readIPv4 text = none := by
  cases hread : readOctet text with
  | none => simp [readIPv4, hread]
  | some found =>
    obtain ⟨byte, rest⟩ := found
    obtain rfl := eq_dropWhile_of_readOctet hread
    simp [readIPv4, hread, skip?_of_clear h]

/-- The characters that go on with a group or with a short host. -/
def goesOn (c : Char) : Bool := (hexDigit? c).isSome || c == '.'

theorem clear_hexDigit (h : Clear goesOn text) : Clear (fun c => (hexDigit? c).isSome) text :=
  h.mono fun c hc => by rw [goesOn, hc, Bool.true_or]

theorem clear_isDigit (h : Clear goesOn text) : Clear Char.isDigit text :=
  h.mono fun c hc => by simp [goesOn, hexDigit?, hc]

theorem clear_dot (h : Clear goesOn text) : Clear (· == '.') text :=
  h.mono fun c hc => by rw [goesOn, hc, Bool.or_true]

/-- No text is both a group and the start of a short host. -/
theorem readIPv4_groupText (group : UInt16) (hafter : Clear goesOn after) :
    readIPv4 (groupText group ++ after) = none := by
  have hnoDot : ∀ c ∈ groupText group, (c == '.') = false := by
    intro c hc
    rw [beq_eq_false_iff_ne]
    rintro rfl
    exact absurd (isSome_hexDigit?_of_mem _ hc) (by decide)
  apply readIPv4_of_clear
  rw [List.dropWhile_append]
  split
  · rw [dropWhile_of_clear (clear_isDigit hafter)]
    exact clear_dot hafter
  · next hleft =>
    have hne : (groupText group).dropWhile Char.isDigit ≠ [] := fun h => hleft (List.isEmpty_iff.2 h)
    have hclear : Clear (· == '.') ((groupText group).dropWhile Char.isDigit) :=
      clear_of_forall fun c hc => hnoDot c ((List.dropWhile_sublist _).subset hc)
    exact hclear.append_of_ne_nil hne

/-- What a group stands behind, unless it is the first. -/
def lead (isFirst : Bool) (text : List Char) : List Char := if isFirst then text else ':' :: text

@[simp] theorem behindColon_lead {α : Type} (isFirst : Bool) (read : List Char → Option (α × List Char))
    (text : List Char) : behindColon isFirst read (lead isFirst text) = read text := by
  cases isFirst <;> simp [behindColon, lead]

theorem readGroups_group (isFirst : Bool) (group : UInt16) (hafter : Clear goesOn after) :
    readGroups isFirst (room + 1) (lead isFirst (groupText group ++ after)) =
      (group :: (readGroups false room after).1, (readGroups false room after).2) := by
  simp [readGroups, readIPv4_groupText group hafter, readGroup_groupText group (clear_hexDigit hafter)]

theorem readGroups_short (isFirst : Bool) (host : IPv4) (hrest : Clear Char.isDigit rest) :
    readGroups isFirst (room + 2) (lead isFirst (host.text ++ rest)) = (host.groups, true, rest) := by
  simp [readGroups, readIPv4_text host hrest]

/-- Neither a group nor a short host is next, not even behind a colon. -/
def Stops (text : List Char) : Prop :=
  Clear goesOn text ∧ ∀ behind, text = ':' :: behind → Clear goesOn behind

theorem stops_colons (text : List Char) : Stops (':' :: ':' :: text) :=
  ⟨clear_cons.2 rfl, fun _ h => (List.cons.inj h).2 ▸ clear_cons.2 rfl⟩

theorem behindColon_of_stops {α : Type} {read : List Char → Option (α × List Char)}
    (hread : ∀ text, Clear goesOn text → read text = none) (isFirst : Bool) (hstops : Stops text) :
    behindColon isFirst read text = none := by
  cases isFirst with
  | true => exact hread text hstops.1
  | false =>
    cases hskip : skip? ':' text with
    | none => simp [behindColon, hskip]
    | some behind =>
      cases text with
      | nil => cases hskip
      | cons first text =>
        obtain ⟨rfl, rfl⟩ : first = ':' ∧ text = behind := by simpa [skip?] using hskip
        simpa [behindColon] using hread _ (hstops.2 _ rfl)

theorem readGroups_stops (isFirst : Bool) (room : Nat) (hstops : Stops text) :
    readGroups isFirst room text = ([], false, text) := by
  have hshort : behindColon isFirst readIPv4 text = none := by
    refine behindColon_of_stops (fun text h => readIPv4_of_clear ?_) isFirst hstops
    rw [dropWhile_of_clear (clear_isDigit h)]
    exact clear_dot h
  have hgroup : behindColon isFirst readGroup text = none :=
    behindColon_of_stops (fun _ h => readGroup_of_clear (clear_hexDigit h)) isFirst hstops
  cases room with
  | zero => rfl
  | succ room => simp [readGroups, hshort, hgroup]

/-- Groups with a colon in front of each. -/
def behind (groups : List UInt16) : List Char := groups.flatMap fun group => ':' :: groupText group

theorem joined_cons (group : UInt16) (groups : List UInt16) :
    joined (group :: groups) = groupText group ++ behind groups := by
  induction groups generalizing group with
  | nil => simp [joined, behind]
  | cons next groups ih =>
    rw [joined, ih, behind, behind, List.flatMap_cons, List.cons_append]
    simp

theorem clear_behind (hrest : Clear goesOn rest) (groups : List UInt16) :
    Clear goesOn (behind groups ++ rest) := by
  cases groups with
  | nil => exact hrest
  | cons => exact clear_cons.2 rfl

theorem readGroups_behind (hstops : Stops rest) (hroom : groups.length ≤ room) :
    readGroups false room (behind groups ++ rest) = (groups, false, rest) := by
  induction groups generalizing room with
  | nil => exact readGroups_stops false room hstops
  | cons group groups ih =>
    cases room with
    | zero => exact absurd hroom (Nat.not_succ_le_zero _)
    | succ room =>
      have hlead : behind (group :: groups) ++ rest =
          lead false (groupText group ++ (behind groups ++ rest)) := by
        simp [behind, lead]
      rw [hlead, readGroups_group false group (clear_behind hstops.1 groups),
        ih (Nat.le_of_succ_le_succ hroom)]

theorem readGroups_joined (hstops : Stops rest) (hroom : groups.length ≤ room) :
    readGroups true room (joined groups ++ rest) = (groups, false, rest) := by
  cases groups with
  | nil => exact readGroups_stops true room hstops
  | cons group groups =>
    cases room with
    | zero => exact absurd hroom (Nat.not_succ_le_zero _)
    | succ room =>
      have hlead : joined (group :: groups) ++ rest =
          lead true (groupText group ++ (behind groups ++ rest)) := by
        rw [joined_cons, List.append_assoc]
        rfl
      rw [hlead, readGroups_group true group (clear_behind hstops.1 groups),
        readGroups_behind hstops (Nat.le_of_succ_le_succ hroom)]

/-- What stands for a short host is made of it again. -/
theorem groups_of_mapped? {short : IPv4} (h : mapped? groups = some short) :
    groups = List.replicate 5 0 ++ 0xffff :: short.groups := by
  have hgroup (group : UInt16) : (group / 256).toUInt8.toUInt16 * 256 + group.toUInt8.toUInt16 = group := by
    apply UInt16.toNat_inj.1
    have hlt := group.toNat_lt
    simp
    omega
  unfold mapped? at h
  split at h
  · obtain rfl := Option.some.inj h
    simp only [IPv4.groups, hgroup, List.replicate, List.cons_append, List.nil_append]
  · cases h

/-- The longest run is a run of zero groups, and it is where it is said to be. -/
theorem exists_run (groups : List UInt16) :
    ∃ front back, groups = front ++ (List.replicate (longestRun groups).2 0 ++ back) ∧
      front.length = (longestRun groups).1 := by
  induction groups with
  | nil => exact ⟨[], [], rfl, rfl⟩
  | cons group groups ih =>
    simp only [longestRun]
    split
    · refine ⟨[], (group :: groups).dropWhile (· == 0), ?_, rfl⟩
      have hzeros : (group :: groups).takeWhile (· == 0) = List.replicate (zeroRun (group :: groups)) 0 :=
        List.eq_replicate_of_mem fun g hg => beq_iff_eq.1 (List.all_eq_true.1 List.all_takeWhile g hg)
      rw [List.nil_append, ← hzeros, List.takeWhile_append_dropWhile]
    · obtain ⟨front, back, hgroups, hfront⟩ := ih
      exact ⟨group :: front, back, by rw [List.cons_append, ← hgroups], by rw [List.length_cons, hfront]⟩

/-- The groups that are left out of a text are zeros, and the others stand on both sides of them. -/
theorem exists_around_run (groups : List UInt16) :
    ∃ front back, groups = front ++ (List.replicate (longestRun groups).2 0 ++ back) ∧
      groups.take (longestRun groups).1 = front ∧
      groups.drop ((longestRun groups).1 + (longestRun groups).2) = back := by
  obtain ⟨front, back, hgroups, hfront⟩ := exists_run groups
  refine ⟨front, back, hgroups, ?_, ?_⟩
  · calc groups.take (longestRun groups).1
      _ = (front ++ (List.replicate (longestRun groups).2 0 ++ back)).take (longestRun groups).1 :=
        congrArg (List.take _) hgroups
      _ = front := List.take_left' hfront
  · calc groups.drop ((longestRun groups).1 + (longestRun groups).2)
      _ = (front ++ List.replicate (longestRun groups).2 0 ++ back).drop
          ((longestRun groups).1 + (longestRun groups).2) :=
        congrArg (List.drop _) (hgroups.trans (List.append_assoc ..).symm)
      _ = back := List.drop_left' (by rw [List.length_append, hfront, List.length_replicate])

theorem ofGroups?_groups (host : IPv6) : ofGroups? host.groups = some host := dif_pos host.length_groups

/-- A host is made of the groups in front of `::` and behind it, with zeros between them. -/
theorem readIPv6_around {head tail : List UInt16} {endsShort : Bool} {afterHead : List Char} (host : IPv6)
    (hhead : readGroups true 8 text = (head, false, ':' :: ':' :: afterHead))
    (htail : readGroups true (7 - head.length) afterHead = (tail, endsShort, rest))
    (hshort : head.length < 8)
    (hgroups : host.groups = head ++ (List.replicate (8 - head.length - tail.length) 0 ++ tail)) :
    readIPv6 text = some (host, rest) := by
  simp [readIPv6, hhead, htail, Nat.ne_of_lt hshort, ← hgroups, ofGroups?_groups]

/-- Behind `::` stands the group `ffff`, and behind that a short host. -/
theorem readGroups_mapped (short : IPv4) (hrest : Clear Char.isDigit rest) :
    readGroups true 7 (groupText 0xffff ++ ':' :: (short.text ++ rest)) =
      (0xffff :: short.groups, true, rest) := by
  have hgroup : readGroups true 7 (groupText 0xffff ++ ':' :: (short.text ++ rest)) = _ :=
    readGroups_group true 0xffff (clear_cons.2 rfl)
  have hshort : readGroups false 6 (':' :: (short.text ++ rest)) = (short.groups, true, rest) :=
    readGroups_short false short hrest
  rw [hgroup, hshort]

/-- A long host is read back from each of the three ways in which it is written. -/
theorem readIPv6_text (host : IPv6) (hrest : Clear (fun c => goesOn c || c == ':') rest) :
    readIPv6 (host.text ++ rest) = some (host, rest) := by
  have hgoesOn : Clear goesOn rest := hrest.mono fun c hc => by rw [hc, Bool.true_or]
  have hstops : Stops rest := by
    refine ⟨hgoesOn, ?_⟩
    rintro behind rfl
    exact absurd (clear_cons.1 hrest) (by decide)
  cases hmapped : mapped? host.groups with
  | some short =>
    have htext : host.text ++ rest = ':' :: ':' :: (groupText 0xffff ++ ':' :: (short.text ++ rest)) := by
      have hffff : groupText 0xffff = ['f', 'f', 'f', 'f'] := by decide
      simp [IPv6.text, hmapped, hffff]
    rw [htext]
    exact readIPv6_around host (readGroups_stops true 8 (stops_colons _))
      (readGroups_mapped short (clear_isDigit hgoesOn)) (by decide) (groups_of_mapped? hmapped)
  | none =>
    by_cases hrun : 1 < (longestRun host.groups).2
    · obtain ⟨front, back, hgroups, htake, hdrop⟩ := exists_around_run host.groups
      have htext : host.text ++ rest = joined front ++ ':' :: ':' :: (joined back ++ rest) := by
        simp [IPv6.text, hmapped, hrun, htake, hdrop]
      have hlength := congrArg List.length hgroups
      simp only [host.length_groups, List.length_append, List.length_replicate] at hlength
      have hleft : 8 - front.length - back.length = (longestRun host.groups).2 := by omega
      rw [htext]
      exact readIPv6_around host (readGroups_joined (stops_colons _) (by omega))
        (readGroups_joined hstops (by omega)) (by omega) (hleft ▸ hgroups)
    · have hread := readGroups_joined hstops (Nat.le_of_eq host.length_groups)
      simp [IPv6.text, hmapped, hrun, readIPv6, hread, host.length_groups, ofGroups?_groups]

end Abacus.Address
