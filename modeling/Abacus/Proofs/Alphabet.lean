import Abacus.Alphabet
import Abacus.Proofs.Text.Trim

namespace Abacus

open Text

/-- A character that is neither a separator nor in the alphabet. -/
def isForeign (c : Char) : Bool := !isSeparator c && !inAlphabet c

/-- Separators put in anywhere. -/
inductive Spread : List Char → List Char → Prop where
  | nil : Spread [] []
  | keep {c text raw} (others : Spread text raw) : Spread (c :: text) (c :: raw)
  | insert {c text raw} (separator : isSeparator c) (others : Spread text raw) : Spread text (c :: raw)

/-- What cleaning a text comes to. The first foreign character is refused. Without one there must be as
many opening as closing parentheses, and then all but the separators is kept. -/
inductive Cleans (raw : String) : Except Failure String → Prop where
  | foreign {before behind : List Char} {found : Char}
      (split : raw.toList = before ++ found :: behind)
      (familiar : ∀ c ∈ before, isForeign c = false) (foreign : isForeign found) :
      Cleans raw (.error (.invalidCharacter found))
  | unbalanced (familiar : ∀ c ∈ raw.toList, isForeign c = false)
      (differ : raw.toList.count '(' ≠ raw.toList.count ')') :
      Cleans raw (.error (.unbalancedParentheses (raw.toList.count '(') (raw.toList.count ')')))
  | kept {text : String} (familiar : ∀ c ∈ raw.toList, isForeign c = false)
      (balanced : raw.toList.count '(' = raw.toList.count ')')
      (spread : Spread text.toList raw.toList) (dense : ∀ c ∈ text.toList, isSeparator c = false) :
      Cleans raw (.ok text)

variable {raw other text : String} {c : Char}

/-- No visible character of ASCII is a separator. -/
theorem isSeparator_of_visible (hlow : 33 ≤ c.toNat) (hhigh : c.toNat ≤ 126) :
    isSeparator c = false := by
  rw [isSeparator, isBlank_of_visible hlow hhigh]
  simp
  omega

theorem isSeparator_of_isDigit (h : c.isDigit) : isSeparator c = false := by
  have hrange : 48 ≤ c.toNat ∧ c.toNat ≤ 57 := Char.isDigit_iff_toNat.1 h
  exact isSeparator_of_visible (by omega) (by omega)

theorem isSeparator_of_inAlphabet (h : inAlphabet c) : isSeparator c = false := by
  rcases Bool.or_eq_true_iff.1 h with hdigit | hother
  · exact isSeparator_of_isDigit hdigit
  · rw [List.contains_iff_mem] at hother
    simp only [List.mem_cons, List.not_mem_nil, or_false] at hother
    rcases hother with rfl | rfl | rfl | rfl | rfl | rfl | rfl <;> rfl

theorem Spread.filter {text raw : List Char} (h : Spread text raw)
    (htext : ∀ c ∈ text, isSeparator c = false) : raw.filter (fun c => !isSeparator c) = text := by
  induction h with
  | nil => rfl
  | @keep c text raw _ ih =>
    obtain ⟨hc, hothers⟩ := List.forall_mem_cons.1 htext
    rw [List.filter_cons_of_pos (by rw [hc]; rfl), ih hothers]
  | insert separator _ ih =>
    rw [List.filter_cons_of_neg (by rw [separator]; decide), ih htext]

theorem spread_significant (raw : String) : Spread (significant raw) raw.toList := by
  unfold significant
  induction raw.toList with
  | nil => exact .nil
  | cons c raw ih =>
    cases hc : isSeparator c with
    | false =>
      rw [List.filter_cons_of_pos (by rw [hc]; rfl)]
      exact .keep ih
    | true =>
      rw [List.filter_cons_of_neg (by rw [hc]; decide)]
      exact .insert hc ih

theorem Spread.refl (text : List Char) : Spread text text := by
  induction text with
  | nil => exact .nil
  | cons c text ih => exact .keep ih

theorem mem_significant : c ∈ significant raw ↔ c ∈ raw.toList ∧ isSeparator c = false := by
  simp [significant]

theorem dense_significant (raw : String) : ∀ c ∈ significant raw, isSeparator c = false :=
  fun _ hc => (mem_significant.1 hc).2

/-- There is one text without separators that they can be put into. -/
theorem eq_significant_iff {text : List Char} :
    text = significant raw ↔ Spread text raw.toList ∧ ∀ c ∈ text, isSeparator c = false := by
  constructor
  · rintro rfl
    exact ⟨spread_significant raw, dense_significant raw⟩
  · rintro ⟨hspread, hdense⟩
    exact (hspread.filter hdense).symm

theorem significant_of_dense {text : List Char} (h : ∀ c ∈ text, isSeparator c = false) :
    significant (.ofList text) = text := by
  have hspread : Spread text (String.ofList text).toList := by
    rw [String.toList_ofList]
    exact .refl text
  exact (eq_significant_iff.2 ⟨hspread, h⟩).symm

theorem significant_append (raw other : String) :
    significant (raw ++ other) = significant raw ++ significant other := by
  unfold significant
  rw [String.toList_append, List.filter_append]

theorem count_significant (raw : String) (h : isSeparator c = false) :
    (significant raw).count c = raw.toList.count c :=
  List.count_filter (by rw [h]; rfl)

theorem find?_significant (raw : String) :
    (significant raw).find? (fun c => !inAlphabet c) = raw.toList.find? isForeign := by
  unfold significant
  rw [List.find?_filter]
  congr 1
  funext c
  simp [isForeign]

theorem familiar_iff :
    (∀ c ∈ raw.toList, isForeign c = false) ↔ ∀ c ∈ significant raw, inAlphabet c := by
  simp [mem_significant, isForeign]

theorem clean_of_foreign {found : Char} (h : raw.toList.find? isForeign = some found) :
    clean raw = .error (.invalidCharacter found) := by
  unfold clean cleaning
  dsimp only
  rw [find?_significant, h]
  rfl

theorem exists_clean_of_foreign (hmem : c ∈ raw.toList) (hforeign : isForeign c) :
    ∃ found, clean raw = .error (.invalidCharacter found) := by
  obtain ⟨found, hfound⟩ := Option.isSome_iff_exists.1 (List.find?_isSome.2 ⟨c, hmem, hforeign⟩)
  exact ⟨found, clean_of_foreign hfound⟩

theorem clean_of_familiar (h : ∀ c ∈ raw.toList, isForeign c = false) :
    clean raw =
      if raw.toList.count '(' = raw.toList.count ')' then .ok (.ofList (significant raw))
      else .error (.unbalancedParentheses (raw.toList.count '(') (raw.toList.count ')')) := by
  have hnone : raw.toList.find? isForeign = none :=
    List.find?_eq_none.2 fun c hc => by rw [h c hc]; decide
  unfold clean cleaning
  dsimp only
  rw [find?_significant, hnone]
  dsimp only
  rw [count_significant raw rfl, count_significant raw rfl]
  split <;> rfl

theorem cleans_clean (raw : String) : Cleans raw (clean raw) := by
  cases hfind : raw.toList.find? isForeign with
  | some found =>
    obtain ⟨hforeign, before, behind, hsplit, hbefore⟩ := List.find?_eq_some_iff_append.1 hfind
    rw [clean_of_foreign hfind]
    exact .foreign hsplit (fun c hc => by simpa using hbefore c hc) hforeign
  | none =>
    have hfamiliar : ∀ c ∈ raw.toList, isForeign c = false := by
      simpa using List.find?_eq_none.1 hfind
    rw [clean_of_familiar hfamiliar]
    split
    next hbalanced =>
      obtain ⟨hspread, hdense⟩ := eq_significant_iff.1 (String.toList_ofList (l := significant raw))
      exact .kept hfamiliar hbalanced hspread hdense
    next hdiffer => exact .unbalanced hfamiliar hdiffer

theorem Cleans.eq {outcome : Except Failure String} (h : Cleans raw outcome) : clean raw = outcome := by
  cases h with
  | foreign hsplit hfamiliar hforeign =>
    apply clean_of_foreign
    refine List.find?_eq_some_iff_append.2 ⟨hforeign, _, _, hsplit, ?_⟩
    exact fun c hc => by rw [hfamiliar c hc]; rfl
  | unbalanced hfamiliar hdiffer => rw [clean_of_familiar hfamiliar, if_neg hdiffer]
  | kept hfamiliar hbalanced hspread hdense =>
    have htext := eq_significant_iff.2 ⟨hspread, hdense⟩
    rw [clean_of_familiar hfamiliar, if_pos hbalanced, ← htext, String.ofList_toList]

theorem clean_eq_iff {outcome : Except Failure String} : clean raw = outcome ↔ Cleans raw outcome :=
  ⟨fun h => h ▸ cleans_clean raw, Cleans.eq⟩

theorem clean_eq_ok_iff :
    clean raw = .ok text ↔
      text.toList = significant raw ∧ (∀ c ∈ raw.toList, isForeign c = false) ∧
        raw.toList.count '(' = raw.toList.count ')' := by
  rw [clean_eq_iff, eq_significant_iff]
  constructor
  · intro h
    cases h with
    | kept hfamiliar hbalanced hspread hdense =>
      exact ⟨⟨hspread, hdense⟩, hfamiliar, hbalanced⟩
  · rintro ⟨⟨hspread, hdense⟩, hfamiliar, hbalanced⟩
    exact .kept hfamiliar hbalanced hspread hdense

theorem cleaning_congr (h : significant raw = significant other) : cleaning raw = cleaning other := by
  unfold cleaning
  rw [h]

theorem clean_congr (h : significant raw = significant other) : clean raw = clean other := by
  unfold clean
  rw [cleaning_congr h]

/-- A text that is kept has no separators, so that those put into it are all that is dropped again. -/
theorem significant_of_spread_clean {spread : String} (h : clean raw = .ok text)
    (hspread : Spread text.toList spread.toList) : significant spread = significant raw := by
  have htext := (clean_eq_ok_iff.1 h).1
  have hdense : ∀ c ∈ text.toList, isSeparator c = false := htext ▸ dense_significant raw
  rw [← htext, eq_significant_iff.2 ⟨hspread, hdense⟩]

theorem clean_spread {spread : String} (h : clean raw = .ok text)
    (hspread : Spread text.toList spread.toList) : clean spread = .ok text :=
  (clean_congr (significant_of_spread_clean h hspread)).trans h

theorem clean_append {front behind : String} (hraw : clean raw = .ok front)
    (hother : clean other = .ok behind) : clean (raw ++ other) = .ok (front ++ behind) := by
  obtain ⟨hfront, hknown, hbalanced⟩ := clean_eq_ok_iff.1 hraw
  obtain ⟨hbehind, hothers, hlevel⟩ := clean_eq_ok_iff.1 hother
  refine clean_eq_ok_iff.2 ⟨?_, ?_, ?_⟩
  · rw [String.toList_append, hfront, hbehind, significant_append]
  · rw [String.toList_append]
    exact List.forall_mem_append.2 ⟨hknown, hothers⟩
  · rw [String.toList_append, List.count_append, List.count_append, hbalanced, hlevel]

/-- Cleaning refuses or keeps exactly what `Cleans` says, and looks at nothing but the characters that
are no separators. What it keeps is kept again, with separators put in anywhere or none, and two texts
that are kept are kept as one. -/
theorem clean_projects (raw : String) :
    (∀ outcome, clean raw = outcome ↔ Cleans raw outcome) ∧
      (∀ other, significant raw = significant other → clean raw = clean other) ∧
      ∀ text, clean raw = .ok text →
        clean text = .ok text ∧
          (∀ spread : String, Spread text.toList spread.toList → clean spread = .ok text) ∧
          ∀ other behind, clean other = .ok behind → clean (raw ++ other) = .ok (text ++ behind) := by
  refine ⟨fun outcome => clean_eq_iff, fun other => clean_congr, fun text hraw => ⟨?_, ?_, ?_⟩⟩
  · exact clean_spread hraw (.refl text.toList)
  · exact fun spread hspread => clean_spread hraw hspread
  · exact fun other behind hother => clean_append hraw hother

/-- The letter outweighs the parenthesis that is missing; a number in parentheses is kept however it is
spaced, and in front of more. -/
theorem clean_projects_spaced :
    Cleans "( 1 + a" (.error (.invalidCharacter 'a')) ∧
      significant "(1 7)" = significant "(17\t)" ∧ clean "(1 7)" = clean "(17\t)" ∧
      clean "(1 7)" = .ok "(17)" ∧ clean "(17)" = .ok "(17)" ∧
      Spread "(17)".toList "\x1f( 1 7)".toList ∧ clean "\x1f( 1 7)" = .ok "(17)" ∧
      clean "* 2" = .ok "*2" ∧ clean "(1 7)* 2" = .ok "(17)*2" := by
  have hletter : clean "( 1 + a" = .error (.invalidCharacter 'a') := rfl
  have hsame : significant "(1 7)" = significant "(17\t)" := by decide +kernel
  have hnumber : clean "(1 7)" = .ok "(17)" := rfl
  have hfactor : clean "* 2" = .ok "*2" := rfl
  have hspread : Spread "(17)".toList "\x1f( 1 7)".toList :=
    .insert rfl (.keep (.insert rfl (.keep (.insert rfl (.keep (.keep .nil))))))
  obtain ⟨_, halike, hkept⟩ := clean_projects "(1 7)"
  obtain ⟨hagain, hwide, hjoined⟩ := hkept _ hnumber
  exact ⟨((clean_projects "( 1 + a").1 _).1 hletter, hsame, halike _ hsame, hnumber, hagain, hspread,
    hwide _ hspread, hfactor, hjoined _ _ hfactor⟩

end Abacus
