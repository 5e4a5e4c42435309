import Abacus.Health.Config
import Abacus.Proofs.Text.Utf8

namespace Abacus.Health

open Text

/-- The address that a text spells, white space around it apart, or the source to blame. -/
def spelled (origin : Origin) (text : List Char) : Except BadAddress Address :=
  match Address.ofText? (trim text) with
  | some address => .ok address
  | none => .error ⟨.ofList text, origin⟩

/-- The address to listen on if no source spells one: `127.0.0.1:8000`. -/
def fallback : Address := .v4 ⟨127, 0, 0, 1⟩ 8000

/-- The values of the variable that do not decide. -/
inductive PassedOver : Option (List UInt8) → Prop where
  | unset : PassedOver none
  | blank {text : List Char} (blank : ∀ c ∈ text, isBlank c) : PassedOver (some (Utf8.encode text))
  | notUtf8 {bytes : List UInt8} (invalid : ¬Utf8.Valid bytes) : PassedOver (some bytes)

variable {flag : Option String} {environment : Option (List UInt8)} {text : List Char}

theorem isBlankText_ofList : isBlankText (.ofList text) ↔ ∀ c ∈ text, isBlank c := by
  rw [isBlankText, String.toList_ofList, List.all_eq_true]

/-- The default is read like any other text. -/
theorem spelled_default : spelled .builtIn defaultAddress.toList = .ok fallback := rfl

theorem listenAddress_eq (flag environment : Option String) :
    listenAddress flag environment =
      spelled (source flag environment).2 (source flag environment).1.toList := by
  cases hread : Address.ofText? (trim (source flag environment).1.toList) with
  | none => simp only [listenAddress, spelled, hread, String.ofList_toList]
  | some address => simp only [listenAddress, spelled, hread]

theorem listenAddressOfBytes_flag (text : String) (environment : Option (List UInt8)) :
    listenAddressOfBytes (some text) environment = spelled .flag text.toList := by
  rw [listenAddressOfBytes, listenAddress_eq, source]

theorem listenAddressOfBytes_passedOver (h : PassedOver environment) :
    listenAddressOfBytes none environment = .ok fallback := by
  rw [listenAddressOfBytes, listenAddress_eq, ← spelled_default]
  cases h with
  | unset => rfl
  | blank hblank =>
    have hall := isBlankText_ofList.2 hblank
    rw [Option.bind_some, Utf8.decode?_encode, Option.map_some, source, if_pos hall]
  | notUtf8 hinvalid =>
    rw [Option.bind_some, Utf8.decode?_eq_none_iff.2 hinvalid]
    rfl

theorem listenAddressOfBytes_environment (h : ¬∀ c ∈ text, isBlank c) :
    listenAddressOfBytes none (some (Utf8.encode text)) = spelled .environment text := by
  rw [← isBlankText_ofList] at h
  rw [listenAddressOfBytes, listenAddress_eq, Option.bind_some, Utf8.decode?_encode, Option.map_some,
    source, if_neg h, String.toList_ofList]

theorem exists_text_of_not_passedOver (h : ¬PassedOver environment) :
    ∃ text, environment = some (Utf8.encode text) ∧ ¬∀ c ∈ text, isBlank c := by
  cases environment with
  | none => exact absurd .unset h
  | some bytes =>
    by_cases hvalid : Utf8.Valid bytes
    · obtain ⟨text, rfl⟩ := hvalid
      exact ⟨text, rfl, fun hblank => h (.blank hblank)⟩
    · exact absurd (.notUtf8 hvalid) h

/-- A flag decides alone. Without one the variable decides alone, and only one that is unset, blank or
not UTF-8 leaves the default. -/
theorem listenAddressOfBytes_decided (flag : Option String) (environment : Option (List UInt8)) :
    (∀ text, flag = some text →
        listenAddressOfBytes flag environment = spelled .flag text.toList) ∧
      (flag = none → PassedOver environment →
        listenAddressOfBytes flag environment = .ok fallback) ∧
      (flag = none → ¬PassedOver environment →
        ∃ text, environment = some (Utf8.encode text) ∧ (¬∀ c ∈ text, isBlank c) ∧
          listenAddressOfBytes flag environment = spelled .environment text) := by
  refine ⟨?_, ?_, ?_⟩
  · rintro text rfl
    exact listenAddressOfBytes_flag text environment
  · rintro rfl hpassed
    exact listenAddressOfBytes_passedOver hpassed
  · rintro rfl hheeded
    obtain ⟨text, rfl, hfilled⟩ := exists_text_of_not_passedOver hheeded
    exact ⟨text, rfl, hfilled, listenAddressOfBytes_environment hfilled⟩

/-- A flag beside a variable, a variable that is passed over, and one that decides. -/
theorem listenAddressOfBytes_decided_each :
    listenAddressOfBytes (some "::1") (some [0xff]) = spelled .flag "::1".toList ∧
      listenAddressOfBytes none (some [0xff]) = .ok fallback ∧
      ¬PassedOver (some (Utf8.encode "8080 ".toList)) ∧
      ∃ text, some (Utf8.encode "8080 ".toList) = some (Utf8.encode text) ∧
        (¬∀ c ∈ text, isBlank c) ∧
        listenAddressOfBytes none (some (Utf8.encode "8080 ".toList)) = spelled .environment text := by
  have hheeded : ¬PassedOver (some (Utf8.encode "8080 ".toList)) := by
    intro h
    generalize hvalue : some (Utf8.encode "8080 ".toList) = value at h
    cases h with
    | unset => cases hvalue
    | blank hblank =>
      rw [← Utf8.encode_injective (Option.some.inj hvalue)] at hblank
      exact absurd (hblank '8' List.mem_cons_self) (by decide)
    | notUtf8 hinvalid =>
      rw [← Option.some.inj hvalue] at hinvalid
      exact hinvalid (Utf8.valid_encode _)
  exact ⟨(listenAddressOfBytes_decided (some "::1") (some [0xff])).1 _ rfl,
    (listenAddressOfBytes_decided none (some [0xff])).2.1 rfl (.notUtf8 (by decide +kernel)), hheeded,
    (listenAddressOfBytes_decided none (some (Utf8.encode "8080 ".toList))).2.2 rfl hheeded⟩

/-- The first source that is present does not always decide: bytes that are no UTF-8 and hold no white
space lead to the default. -/
theorem not_utf8_replaced :
    ¬∀ (flag : Option String) (environment : Option (List UInt8)),
      (∃ text, flag = some text ∧
          listenAddressOfBytes flag environment = spelled .flag text.toList) ∨
        (flag = none ∧
          (environment = none ∨ ∃ text, environment = some (Utf8.encode text) ∧ ∀ c ∈ text, isBlank c) ∧
          listenAddressOfBytes flag environment = .ok fallback) ∨
        (flag = none ∧
          ((∃ text, environment = some (Utf8.encode text) ∧
              listenAddressOfBytes flag environment = spelled .environment text) ∨
            ∃ bad, bad.origin = .environment ∧
              listenAddressOfBytes flag environment = .error bad)) := by
  intro hclaim
  have hinvalid : ¬Utf8.Valid [0xff] := by decide +kernel
  have hreplaced := listenAddressOfBytes_passedOver (.notUtf8 hinvalid)
  have hno (text : List Char) : some [0xff] ≠ some (Utf8.encode text) :=
    fun h => hinvalid ⟨text, (Option.some.inj h).symm⟩
  rcases hclaim none (some [0xff]) with ⟨_, hflag, _⟩ | ⟨_, hempty, _⟩ | ⟨_, hspelled | hblamed⟩
  · cases hflag
  · rcases hempty with hunset | ⟨text, hblank, _⟩
    · cases hunset
    · exact hno text hblank
  · obtain ⟨text, htext, _⟩ := hspelled
    exact hno text htext
  · obtain ⟨bad, _, hbad⟩ := hblamed
    rw [hreplaced] at hbad
    cases hbad

end Abacus.Health
