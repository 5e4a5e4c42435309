import Abacus.Proofs.CommandLine.Plan
import Abacus.Proofs.ReadBack

namespace Abacus.CommandLine

open Sink (bytes)
open Text

variable {args : Arguments} {raw : String} {failure : Failure} {value : Binary64}

/-- Lines as one text, with a newline behind each. -/
def unlines (ls : List String) : String := String.join (ls.map (· ++ "\n"))

theorem toList_unlines_append (ls more : List String) :
    (unlines (ls ++ more)).toList = (unlines ls).toList ++ (unlines more).toList := by
  simp [unlines]

/-- The stream holds these lines and nothing else. -/
structure Sink.HoldsLines (sink : Sink) (ls : List String) : Prop where
  holds : sink.Holds (unlines ls)
  single : ∀ l ∈ ls, '\n' ∉ l.toList

/-- The line that shows a cleaned text. -/
def parsedLines (verbose : Bool) : Except Failure String → List String
  | .ok text => if verbose then ["Parsed: " ++ text] else []
  | .error _ => []

/-- The line that shows a value. -/
def resultLines : Except Failure Binary64 → List String
  | .ok value => ["Result: " ++ value.resultText]
  | .error _ => []

theorem solve_of_clean_ok {text : String} (h : clean raw = .ok text) : solve raw = compute text := by
  rw [solve, h]
  rfl

theorem solve_of_clean_error (h : clean raw = .error failure) : solve raw = .error failure := by
  rw [solve, h]
  rfl

theorem newline_notMem_clean {text : String} (h : clean raw = .ok text) : '\n' ∉ text.toList := by
  rw [(clean_eq_ok h).1]
  intro hmem
  exact absurd (List.mem_filter.1 hmem).2 (by decide)

theorem newline_notMem_resultText (value : Binary64) : '\n' ∉ value.resultText.toList :=
  fun hmem => absurd (isSeparator_of_mem_resultText hmem) (by decide)

theorem newline_notMem_lines (verbose : Bool) (raw : String) :
    ∀ l ∈ parsedLines verbose (clean raw) ++ resultLines (solve raw), '\n' ∉ l.toList := by
  intro l hl
  rcases List.mem_append.1 hl with hparsed | hresult
  · cases hclean : clean raw with
    | error failure => simp [hclean, parsedLines] at hparsed
    | ok text =>
      have hl : verbose ∧ l = "Parsed: " ++ text := by simpa [hclean, parsedLines] using hparsed
      simp [hl.2, newline_notMem_clean hclean]
  · cases hsolve : solve raw with
    | error failure => simp [hsolve, resultLines] at hresult
    | ok value =>
      have hl : l = "Result: " ++ value.resultText := by simpa [hsolve, resultLines] using hresult
      simp [hl, newline_notMem_resultText]

namespace Plan

theorem bytes_parsed (args : Arguments) (text : String) :
    bytes (parsed args text) = Utf8.encode (unlines (parsedLines args.verbose (.ok text))).toList := by
  unfold parsed parsedLines
  split
  · rw [bytes_line]
    simp [unlines]
  · rfl

theorem bytes_ofValue (shown : List String) (x : Except Failure Binary64) :
    bytes (ofValue shown x).shown = bytes shown ++ Utf8.encode (unlines (resultLines x)).toList := by
  cases x with
  | error failure => simp [ofValue, failed, resultLines, unlines]
  | ok value =>
    rw [ofValue, Sink.bytes_append, bytes_line]
    simp [resultLines, unlines]

theorem bytes_ofCleaned (args : Arguments) (raw : String) :
    bytes (ofCleaned args (clean raw)).shown =
      Utf8.encode (unlines (parsedLines args.verbose (clean raw) ++ resultLines (solve raw))).toList := by
  cases hclean : clean raw with
  | error failure =>
    rw [solve_of_clean_error hclean]
    rfl
  | ok text =>
    rw [solve_of_clean_ok hclean, ofCleaned, bytes_ofValue, bytes_parsed, toList_unlines_append,
      Utf8.encode_append]

theorem ofCleaned_of_solve_ok (args : Arguments) (h : solve raw = .ok value) :
    (ofCleaned args (clean raw)).exit = .success ∧ (ofCleaned args (clean raw)).told = [] := by
  cases hclean : clean raw with
  | error failure =>
    rw [solve_of_clean_error hclean] at h
    cases h
  | ok text =>
    rw [solve_of_clean_ok hclean] at h
    rw [ofCleaned, h]
    exact ⟨rfl, rfl⟩

theorem ofCleaned_of_solve_error (args : Arguments) (h : solve raw = .error failure) :
    (ofCleaned args (clean raw)).exit = (Trouble.ofFailure failure).exit ∧
      (ofCleaned args (clean raw)).told = (Trouble.ofFailure failure).told := by
  cases hclean : clean raw with
  | error refused =>
    rw [solve_of_clean_error hclean] at h
    cases h
    exact ⟨rfl, rfl⟩
  | ok text =>
    rw [solve_of_clean_ok hclean] at h
    rw [ofCleaned, h]
    exact ⟨rfl, rfl⟩

end Plan

namespace Trouble

theorem ofFailure_of_ne (hoverflow : failure ≠ .evaluation .overflow)
    (hint : failure ≠ .evaluation .intTooLarge) : ofFailure failure = .calculation failure := by
  unfold ofFailure
  split
  · exact absurd rfl hoverflow
  · exact absurd rfl hint
  · rfl

theorem ofFailure_of_range {fault : Fault} (h : fault = .overflow ∨ fault = .intTooLarge) :
    ofFailure (.evaluation fault) = .outOfRange fault := by
  rcases h with rfl | rfl <;> rfl

end Trouble

/-- Over streams that take everything, an expression is shown cleaned, if that is asked for, and with
its value, if it has one. Else the failure is told of, and it decides how the run exits. -/
theorem run_agrees_solve {argv : List String} (hparse : Arguments.parse argv = .ok args)
    (hhelp : args.help = false) :
    let raw := " ".intercalate args.tokens
    let outcome := run argv .unlimited .unlimited
    outcome.out.HoldsLines (parsedLines args.verbose (clean raw) ++ resultLines (solve raw)) ∧
      (∀ value, solve raw = .ok value → outcome.exit = .success ∧ outcome.err.Holds "") ∧
      (∀ fault, solve raw = .error (.evaluation fault) → fault = .overflow ∨ fault = .intTooLarge →
        outcome.exit = .unexpected ∧ outcome.exit.code = 2 ∧
          outcome.err.Holds ("Unexpected error: " ++ fault.message ++ "\n")) ∧
      ∀ failure, solve raw = .error failure → failure ≠ .evaluation .overflow →
        failure ≠ .evaluation .intTooLarge →
        outcome.exit = .userError ∧ outcome.exit.code = 1 ∧
          outcome.err.Holds (notice failure ++ "\n") := by
  intro raw outcome
  have hplan : Plan.ofArgv argv = Plan.ofCleaned args (clean raw) := by
    rw [Plan.ofArgv, hparse]
    dsimp only
    rw [Plan.ofArguments, if_neg (by simp [hhelp])]
    rfl
  have hshown : outcome.out.held = bytes (Plan.ofCleaned args (clean raw)).shown :=
    hplan ▸ out_run_unlimited argv _
  have hexit : outcome.exit = (Plan.ofCleaned args (clean raw)).exit :=
    hplan ▸ exit_run_unlimited argv _
  have htold : outcome.err.held = bytes (Plan.ofCleaned args (clean raw)).told := by
    rw [err_run_unlimited, Plan.after_unlimited, hplan]
  have hfails {failure : Failure} (hsolve : solve raw = .error failure) :
      outcome.exit = (Trouble.ofFailure failure).exit ∧
        outcome.err.held = bytes (Trouble.ofFailure failure).told := by
    obtain ⟨hends, htells⟩ := Plan.ofCleaned_of_solve_error args hsolve
    rw [hexit, htold, hends, htells]
    exact ⟨rfl, rfl⟩
  refine ⟨⟨hshown.trans (Plan.bytes_ofCleaned args raw), newline_notMem_lines _ _⟩, ?_, ?_, ?_⟩
  · intro value hsolve
    obtain ⟨hsuccess, hsilent⟩ := Plan.ofCleaned_of_solve_ok args hsolve
    rw [hsilent] at htold
    exact ⟨hexit.trans hsuccess, htold⟩
  · intro fault hsolve hrange
    obtain ⟨hends, htells⟩ := hfails hsolve
    rw [Trouble.ofFailure_of_range hrange] at hends htells
    exact ⟨hends, congrArg Exit.code hends, htells.trans (bytes_unexpectedError _)⟩
  · intro failure hsolve hoverflow hint
    obtain ⟨hends, htells⟩ := hfails hsolve
    rw [Trouble.ofFailure_of_ne hoverflow hint] at hends htells
    exact ⟨hends, congrArg Exit.code hends, htells.trans (bytes_notice _)⟩

/-- The cleaned text is shown although it has no value. -/
theorem run_agrees_solve_division :
    let args : Arguments := { verbose := true, tokens := ["1", "/ 0"] }
    let outcome := run ["-v", "1", "/ 0"] .unlimited .unlimited
    Arguments.parse ["-v", "1", "/ 0"] = .ok args ∧ args.help = false ∧
      outcome.out.HoldsLines ["Parsed: 1/0"] ∧ outcome.exit = .userError ∧
      outcome.err.Holds "Error: Evaluation error: float division by zero\n" := by
  intro args outcome
  have hparse : Arguments.parse ["-v", "1", "/ 0"] = .ok args := by decide
  have hjoin : " ".intercalate args.tokens = "1 / 0" := by decide
  have hclean : clean "1 / 0" = .ok "1/0" := by decide +kernel
  have hsolve : solve "1 / 0" = .error (.evaluation .divisionByZero) := by decide +kernel
  obtain ⟨hlines, _, _, hfailure⟩ := run_agrees_solve hparse (rfl : args.help = false)
  rw [hjoin] at hlines hfailure
  rw [hclean, hsolve] at hlines
  obtain ⟨hexit, _, htold⟩ := hfailure _ hsolve (by decide) (by decide)
  exact ⟨hparse, rfl, hlines, hexit, htold⟩

end Abacus.CommandLine
