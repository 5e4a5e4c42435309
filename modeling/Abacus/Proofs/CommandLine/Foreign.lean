import Abacus.Proofs.CommandLine.Plan
import Abacus.Proofs.CommandLine.Regrouping

namespace Abacus.CommandLine

open Text
open Arguments (verboseOptions helpOptions isOption isOption_iff leading remaining gathered)

/-- The options as they are written. -/
def optionBytes : List (List UInt8) :=
  (verboseOptions ++ helpOptions).map fun option => Utf8.encode option.toList

/-- An argument that no expression may have: it is not UTF-8, or a character of it is foreign. -/
inductive HoldsForeign : List UInt8 → Prop where
  | notUtf8 {bytes : List UInt8} (invalid : ¬Utf8.Valid bytes) : HoldsForeign bytes
  | character {text : List Char} {c : Char} (mem : c ∈ text) (foreign : isForeign c) :
      HoldsForeign (Utf8.encode text)

variable {args : Arguments} {argv : List String} {token : String} {arg : List UInt8} {c : Char}

/-- The replacement character is foreign, so that what is replaced is refused like any other. -/
theorem HoldsForeign.exists_mem (h : HoldsForeign arg) :
    ∃ c ∈ (Utf8.decodeLossyString arg).toList, isForeign c := by
  rw [Utf8.toList_decodeLossyString]
  cases h with
  | notUtf8 hinvalid => exact ⟨'\ufffd', Utf8.replacement_mem_decodeLossy hinvalid, by decide⟩
  | @character text c hmem hforeign =>
    rw [Utf8.decodeLossy_encode]
    exact ⟨c, hmem, hforeign⟩

theorem isOption_decodeLossyString (arg : List UInt8) :
    isOption (Utf8.decodeLossyString arg) = optionBytes.contains arg := by
  rw [Bool.eq_iff_iff, isOption_iff, Utf8.decodeLossyString_eq_iff (by decide),
    Utf8.decodeLossyString_eq_iff (by decide), Utf8.decodeLossyString_eq_iff (by decide),
    Utf8.decodeLossyString_eq_iff (by decide)]
  simp [optionBytes, verboseOptions, helpOptions, or_assoc]

theorem isOption_comp_decodeLossyString :
    isOption ∘ Utf8.decodeLossyString = optionBytes.contains :=
  funext isOption_decodeLossyString

theorem leading_decoded (argv : List (List UInt8)) :
    leading (argv.map Utf8.decodeLossyString) =
      (argv.takeWhile optionBytes.contains).map Utf8.decodeLossyString := by
  rw [leading, List.takeWhile_map, isOption_comp_decodeLossyString]

theorem behind_decoded (argv : List (List UInt8)) :
    (argv.map Utf8.decodeLossyString).dropWhile isOption =
      (argv.dropWhile optionBytes.contains).map Utf8.decodeLossyString := by
  rw [List.dropWhile_map, isOption_comp_decodeLossyString]

theorem mem_map_decoded {arguments : List (List UInt8)} {text : String} (h : '\ufffd' ∉ text.toList) :
    text ∈ arguments.map Utf8.decodeLossyString ↔ Utf8.encode text.toList ∈ arguments := by
  simp [Utf8.decodeLossyString_eq_iff h]

/-- Help is asked for by the bytes of its options. -/
theorem help_gathered_decoded (argv : List (List UInt8)) :
    (gathered (argv.map Utf8.decodeLossyString)).help ↔
      Utf8.encode "-h".toList ∈ argv.takeWhile optionBytes.contains ∨
        Utf8.encode "--help".toList ∈ argv.takeWhile optionBytes.contains := by
  rw [Arguments.help_gathered, leading_decoded, mem_map_decoded (by decide),
    mem_map_decoded (by decide)]

theorem mem_expression (htoken : token ∈ args.tokens) (hc : c ∈ token.toList)
    (hseparator : isSeparator c = false) : c ∈ args.expression.toList := by
  have hmem : c ∈ significant (String.join args.tokens) := by
    rw [mem_significant, String.toList_join]
    exact ⟨List.mem_flatMap.2 ⟨token, htoken, hc⟩, hseparator⟩
  rw [← significant_intercalate] at hmem
  exact (mem_significant.1 hmem).1

theorem Plan.ofCleaned_of_foreign (args : Arguments) (htoken : token ∈ args.tokens)
    (hc : c ∈ token.toList) (hforeign : isForeign c) :
    ∃ found, Plan.ofCleaned args (clean args.expression) =
      .failed [] (.calculation (.invalidCharacter found)) := by
  have hseparator : isSeparator c = false := by
    simpa using (Bool.and_eq_true_iff.1 hforeign).1
  obtain ⟨found, hclean⟩ := exists_clean_of_foreign (mem_expression htoken hc hseparator) hforeign
  exact ⟨found, by rw [hclean]; rfl⟩

/-- A command line with a foreign character behind its options is refused, unless it asks for help. -/
theorem Plan.ofArgv_of_foreign (htoken : token ∈ argv.dropWhile isOption) (hc : c ∈ token.toList)
    (hforeign : isForeign c) :
    ((gathered argv).help → Plan.ofArgv argv = ⟨line [helpText], .success, []⟩) ∧
      (¬(gathered argv).help → ∃ found,
        Plan.ofArgv argv = .failed [] (.calculation (.invalidCharacter found))) := by
  -- The `--` that is dropped has nothing foreign in it.
  have hdashes : token ≠ "--" := by
    rintro rfl
    have hminus : c = '-' := by simpa using hc
    subst hminus
    cases hforeign
  have hremains : token ∈ remaining argv := Arguments.mem_remaining htoken hdashes
  have hparse : Arguments.parse argv = .ok (gathered argv) :=
    Arguments.parse_eq_ok_iff.2 ⟨.inl (List.ne_nil_of_mem hremains), rfl⟩
  have hplan : Plan.ofArgv argv = Plan.ofArguments (gathered argv) := by rw [Plan.ofArgv, hparse]
  constructor
  · intro hhelp
    rw [hplan, Plan.ofArguments, if_pos hhelp]
  · intro hhelp
    rw [hplan, Plan.ofArguments, if_neg hhelp]
    exact Plan.ofCleaned_of_foreign _ hremains hc hforeign

/-- If an argument behind the options is not UTF-8, or has a foreign character, the run says so and
nothing else, whatever else is wrong and however it was to be shown, unless an option asks for help. -/
theorem runOfBytes_foreign {argv : List (List UInt8)}
    (hbehind : arg ∈ argv.dropWhile optionBytes.contains) (hforeign : HoldsForeign arg) :
    let options := argv.takeWhile optionBytes.contains
    let asksHelp := Utf8.encode "-h".toList ∈ options ∨ Utf8.encode "--help".toList ∈ options
    let outcome := runOfBytes argv .unlimited .unlimited
    (asksHelp → outcome.exit = .success ∧ outcome.exit.code = 0 ∧
        outcome.out.Holds (helpText ++ "\n") ∧ outcome.err.Holds "") ∧
      (¬asksHelp → outcome.exit = .userError ∧ outcome.exit.code = 1 ∧ outcome.out.Holds "" ∧
        outcome.err.Holds "Error: Expression contains invalid characters.\n") := by
  intro options asksHelp outcome
  obtain ⟨c, hc, hcharacter⟩ := hforeign.exists_mem
  have htoken : Utf8.decodeLossyString arg ∈ (argv.map Utf8.decodeLossyString).dropWhile isOption := by
    rw [behind_decoded]
    exact List.mem_map_of_mem hbehind
  have hasks : asksHelp ↔ (gathered (argv.map Utf8.decodeLossyString)).help :=
    (help_gathered_decoded argv).symm
  obtain ⟨hhelps, hrefuses⟩ := Plan.ofArgv_of_foreign htoken hc hcharacter
  rw [hasks]
  constructor
  · intro hhelp
    obtain ⟨hexit, hshown, htold⟩ := run_unlimited (hhelps hhelp)
    exact ⟨hexit, congrArg Exit.code hexit, hshown.trans (by simp [bytes_line]), htold⟩
  · intro hhelp
    obtain ⟨found, hplan⟩ := hrefuses hhelp
    obtain ⟨hexit, hshown, htold⟩ := run_unlimited hplan
    exact ⟨hexit, congrArg Exit.code hexit, hshown, htold.trans (bytes_notice _)⟩

/-- An option with a byte too many starts the expression. It is refused for that byte, and not for its
parentheses or its division by zero. -/
theorem runOfBytes_foreign_option :
    let stray : List UInt8 := [0x2d, 0x76, 0xff]
    let argv := [Utf8.encode "-v".toList, stray, Utf8.encode "1/0)".toList]
    let outcome := runOfBytes argv .unlimited .unlimited
    stray ∈ argv.dropWhile optionBytes.contains ∧ HoldsForeign stray ∧
      outcome.exit = .userError ∧ outcome.out.Holds "" ∧
      outcome.err.Holds "Error: Expression contains invalid characters.\n" ∧
      (runOfBytes (Utf8.encode "-h".toList :: argv) .unlimited .unlimited).exit = .success := by
  intro stray argv outcome
  have hforeign : HoldsForeign stray := .notUtf8 (by decide +kernel)
  have hbehind : stray ∈ argv.dropWhile optionBytes.contains := by decide +kernel
  obtain ⟨_, hrefused⟩ := runOfBytes_foreign hbehind hforeign
  obtain ⟨hexit, _, hshown, htold⟩ := hrefused (by decide +kernel)
  have hstill : stray ∈ (Utf8.encode "-h".toList :: argv).dropWhile optionBytes.contains := by
    decide +kernel
  obtain ⟨hhelped, _⟩ := runOfBytes_foreign hstill hforeign
  exact ⟨hbehind, hforeign, hexit, hshown, htold, (hhelped (by decide +kernel)).1⟩

end Abacus.CommandLine
