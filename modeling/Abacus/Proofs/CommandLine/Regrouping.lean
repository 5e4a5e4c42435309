import Abacus.CommandLine.Run
import Abacus.Proofs.Alphabet
import Abacus.Proofs.CommandLine.Options

namespace Abacus.CommandLine

variable {args other : Arguments} {flags tokens others : List String}

/-- The spaces between the pieces are dropped with the other separators. -/
theorem significant_intercalate (tokens : List String) :
    significant (" ".intercalate tokens) = significant (String.join tokens) := by
  induction tokens with
  | nil => rfl
  | cons token tokens ih =>
    rw [String.join_cons, significant_append, ← ih]
    cases tokens with
    | nil => simp [significant]
    | cons next tokens =>
      have hspace : significant " " = [] := rfl
      rw [String.intercalate_cons_cons, significant_append, significant_append, hspace,
        List.append_nil]

theorem cleaning_expression
    (h : significant (String.join args.tokens) = significant (String.join other.tokens)) :
    cleaning args.expression = cleaning other.expression := by
  apply cleaning_congr
  rw [Arguments.expression, Arguments.expression, significant_intercalate, significant_intercalate, h]

/-- Of its expression a run sees what cleaning makes of it and nothing else. -/
theorem perform_congr (hverbose : args.verbose = other.verbose)
    (hclean : cleaning args.expression = cleaning other.expression) (out : Sink) :
    perform args out = perform other out := by
  unfold perform
  rw [hverbose, hclean]

theorem run_congr {argv more : List String} (hargs : Arguments.parse argv = .ok args)
    (hother : Arguments.parse more = .ok other) (hhelp : args.help = other.help)
    (hverbose : args.verbose = other.verbose)
    (hclean : cleaning args.expression = cleaning other.expression) (out err : Sink) :
    run argv out err = run more out err := by
  unfold run
  rw [hargs, hother]
  dsimp only
  rw [hhelp, perform_congr hverbose hclean]

/-- Behind options that a `--` ends, two expressions that differ in their separators alone, and in how
they are split, make the same run: it shows the same, tells the same, logs the same and exits alike. -/
theorem run_regrouped (hflags : ∀ flag ∈ flags, Arguments.isOption flag) (htokens : tokens ≠ [])
    (hothers : others ≠ [])
    (hsame : significant (String.join tokens) = significant (String.join others)) (out err : Sink) :
    run (flags ++ "--" :: tokens) out err = run (flags ++ "--" :: others) out err :=
  run_congr (Arguments.parse_dashes hflags htokens) (Arguments.parse_dashes hflags hothers) rfl rfl
    (cleaning_expression hsame) out err

/-- A number and an operator are split, and one piece is empty. -/
theorem run_regrouped_number :
    (∀ flag ∈ ["-v"], Arguments.isOption flag) ∧ ["1", "", "0 /", "/-4"] ≠ [] ∧ ["10/", "/ -4"] ≠ [] ∧
      significant (String.join ["1", "", "0 /", "/-4"]) = significant (String.join ["10/", "/ -4"]) ∧
      run ["-v", "--", "1", "", "0 /", "/-4"] .unlimited .unlimited =
        run ["-v", "--", "10/", "/ -4"] .unlimited .unlimited := by
  have hflags : ∀ flag ∈ ["-v"], Arguments.isOption flag := by decide
  have hpieces : ["1", "", "0 /", "/-4"] ≠ [] := by decide
  have hothers : ["10/", "/ -4"] ≠ [] := by decide
  have hsame : significant (String.join ["1", "", "0 /", "/-4"]) =
      significant (String.join ["10/", "/ -4"]) := by decide +kernel
  exact ⟨hflags, hpieces, hothers, hsame, run_regrouped hflags hpieces hothers hsame _ _⟩

end Abacus.CommandLine
