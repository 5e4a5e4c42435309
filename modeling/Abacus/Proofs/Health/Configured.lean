import Abacus.Proofs.Address.RoundTrip
import Abacus.Proofs.Health.Listening

namespace Abacus.Health

open Text

variable {flag environment : Option String} {left right text : String}

theorem listenAddress_flag (text : String) (environment : Option String) :
    listenAddress (some text) environment = spelled .flag text.toList := by
  rw [listenAddress_eq, source]

theorem listenAddress_environment (h : ¬isBlankText text) :
    listenAddress none (some text) = spelled .environment text.toList := by
  rw [listenAddress_eq, source, if_neg h]

theorem spelled_padded (origin : Origin) (address : Address) (hleft : isBlankText left)
    (hright : isBlankText right) : spelled origin (left ++ address.text ++ right).toList = .ok address := by
  rw [String.toList_append, String.toList_append, Address.text, String.toList_ofList, spelled,
    address.ofText?_trim_chars (List.all_eq_true.1 hleft) (List.all_eq_true.1 hright)]

theorem spelled_of_none (origin : Origin) (h : Address.ofText? (trim text.toList) = none) :
    spelled origin text.toList = .error ⟨text, origin⟩ := by
  rw [spelled, h]
  simp

/-- An address is not blank, so a variable that holds one is heeded. -/
theorem not_isBlankText_padded (address : Address) : ¬isBlankText (left ++ address.text ++ right) := by
  obtain ⟨first, others, hchars⟩ := List.exists_cons_of_ne_nil address.chars_ne_nil
  have hfirst := address.clear_chars
  rw [hchars, clear_cons] at hfirst
  intro hblank
  have hmem : first ∈ (left ++ address.text ++ right).toList := by simp [Address.text, hchars]
  have hcontra := List.all_eq_true.1 hblank first hmem
  rw [hfirst] at hcontra
  cases hcontra

/-- Every address is read back from either source. A text that spells none is returned as it was given,
with the source that it is from. -/
theorem listenAddress_reads_back (hleft : isBlankText left) (hright : isBlankText right) :
    (∀ (address : Address) (environment : Option String),
      listenAddress (some (left ++ address.text ++ right)) environment = .ok address ∧
      listenAddress none (some (left ++ address.text ++ right)) = .ok address) ∧
    ∀ text : String, Address.ofText? (trim text.toList) = none →
      (∀ environment, listenAddress (some text) environment = .error ⟨text, .flag⟩) ∧
      (¬isBlankText text → listenAddress none (some text) = .error ⟨text, .environment⟩) := by
  refine ⟨fun address environment => ⟨?_, ?_⟩, fun text htext => ⟨fun environment => ?_, fun hfilled => ?_⟩⟩
  · rw [listenAddress_flag, spelled_padded .flag address hleft hright]
  · rw [listenAddress_environment (not_isBlankText_padded address),
      spelled_padded .environment address hleft hright]
  · rw [listenAddress_flag, spelled_of_none .flag htext]
  · rw [listenAddress_environment hfilled, spelled_of_none .environment htext]

theorem listenAddress_reads_back_mapped :
    isBlankText "\t " ∧ isBlankText "\u3000\n" ∧
    listenAddress none (some ("\t " ++ "[::ffff:127.0.0.1%7]:65535" ++ "\u3000\n")) =
      .ok (.v6 ⟨[0, 0, 0, 0, 0, 0xffff, 0x7f00, 1], rfl⟩ 7 65535) ∧
    Address.ofText? (trim " [::1:80".toList) = none ∧
    listenAddress (some " [::1:80") none = .error ⟨" [::1:80", .flag⟩ := by
  have hleft : isBlankText "\t " := by decide
  have hright : isBlankText "\u3000\n" := by decide
  have hbad : Address.ofText? (trim " [::1:80".toList) = none := by decide
  obtain ⟨hread, hblame⟩ := listenAddress_reads_back hleft hright
  exact ⟨hleft, hright, (hread (.v6 ⟨[0, 0, 0, 0, 0, 0xffff, 0x7f00, 1], rfl⟩ 7 65535) none).2, hbad,
    (hblame _ hbad).1 none⟩

end Abacus.Health
