import Abacus.CommandLine.Arguments
import Mathlib.Logic.Basic

namespace Abacus.CommandLine.Arguments

variable {args : Arguments} {option : String} {argv options behind flags tokens : List String}

def verboseOptions : List String := ["-v", "--verbose"]

def helpOptions : List String := ["-h", "--help"]

def isOption (arg : String) : Bool := verboseOptions.contains arg || helpOptions.contains arg

/-- The options in front of everything else. -/
def leading (argv : List String) : List String := argv.takeWhile isOption

/-- What is behind the options, a `--` in front of it apart. -/
def remaining (argv : List String) : List String :=
  let behind := argv.dropWhile isOption
  if behind.head? = some "--" then behind.tail else behind

/-- The arguments with the switches turned on that options stand for. -/
def switched (args : Arguments) (options : List String) : Arguments :=
  { args with
    verbose := args.verbose || options.any verboseOptions.contains
    help := args.help || options.any helpOptions.contains }

/-- What the arguments are read as, whether or not there is an expression among them. -/
def gathered (argv : List String) : Arguments :=
  { switched {} (leading argv) with tokens := remaining argv }

theorem any_verboseOptions_iff :
    options.any verboseOptions.contains ↔ "-v" ∈ options ∨ "--verbose" ∈ options := by
  simp [verboseOptions, and_or_left, exists_or]

theorem any_helpOptions_iff :
    options.any helpOptions.contains ↔ "-h" ∈ options ∨ "--help" ∈ options := by
  simp [helpOptions, and_or_left, exists_or]

theorem isOption_iff :
    isOption option ↔ (option = "-v" ∨ option = "--verbose") ∨ option = "-h" ∨ option = "--help" := by
  simp [isOption, verboseOptions, helpOptions]

theorem switched_nil (args : Arguments) : args.switched [] = args := by
  simp [switched]

theorem switched_append (args : Arguments) (options more : List String) :
    (args.switched options).switched more = args.switched (options ++ more) := by
  simp [switched, Bool.or_assoc]

theorem readOptions_option (h : isOption option) (behind : List String) :
    readOptions args (option :: behind) = readOptions (args.switched [option]) behind := by
  rcases isOption_iff.1 h with (rfl | rfl) | rfl | rfl <;>
    simp [readOptions, switched, verboseOptions, helpOptions]

theorem readOptions_options (h : ∀ option ∈ options, isOption option) (behind : List String) :
    readOptions args (options ++ behind) = readOptions (args.switched options) behind := by
  induction options generalizing args with
  | nil => rw [switched_nil, List.nil_append]
  | cons option options ih =>
    obtain ⟨hoption, hothers⟩ := List.forall_mem_cons.1 h
    rw [List.cons_append, readOptions_option hoption, ih hothers, switched_append]
    rfl

theorem readOptions_dashes (args : Arguments) (tokens : List String) :
    readOptions args ("--" :: tokens) = { args with tokens } := by
  simp [readOptions]

theorem readOptions_start {token : String} (hoption : ¬isOption token) (hdashes : token ≠ "--")
    (tokens : List String) :
    readOptions args (token :: tokens) = { args with tokens := token :: tokens } := by
  rw [isOption_iff, not_or] at hoption
  rw [readOptions, if_neg hoption.1, if_neg hoption.2, if_neg hdashes]

/-- Behind the options no argument is lost and none is read as an option again. -/
theorem readOptions_behind (hargs : args.tokens = []) (h : ∀ first ∈ behind.head?, ¬isOption first) :
    readOptions args behind =
      { args with tokens := if behind.head? = some "--" then behind.tail else behind } := by
  cases behind with
  | nil =>
    -- Nothing is left, so the tokens are those from before, and there were none.
    obtain ⟨verbose, help, tokens⟩ := args
    cases hargs
    rfl
  | cons first tokens =>
    by_cases hdashes : first = "--"
    · subst hdashes
      rw [readOptions_dashes, List.head?_cons, List.tail_cons]
      simp only [if_true]
    · have hhead : (first :: tokens).head? ≠ some "--" := fun heq => hdashes (Option.some.inj heq)
      rw [readOptions_start (h first rfl) hdashes, if_neg hhead]

theorem readOptions_eq (argv : List String) : readOptions {} argv = gathered argv := by
  have hleading : ∀ option ∈ leading argv, isOption option := List.all_eq_true.1 List.all_takeWhile
  have hbehind : ∀ first ∈ (argv.dropWhile isOption).head?, ¬isOption first := by
    intro first hfirst
    have hstop := List.head?_dropWhile_not isOption argv
    rw [hfirst] at hstop
    rw [hstop]
    decide
  have hsplit : leading argv ++ argv.dropWhile isOption = argv := List.takeWhile_append_dropWhile
  calc
    readOptions {} argv = readOptions {} (leading argv ++ argv.dropWhile isOption) := by rw [hsplit]
    _ = readOptions (switched {} (leading argv)) (argv.dropWhile isOption) :=
      readOptions_options hleading _
    _ = gathered argv := readOptions_behind rfl hbehind

/-- An expression is missed only where nothing is left and no help is asked for. -/
theorem parse_eq (argv : List String) :
    parse argv =
      if remaining argv = [] ∧ (gathered argv).help = false then .error .noExpression
      else .ok (gathered argv) := by
  have hmissing : ((gathered argv).tokens.isEmpty && !(gathered argv).help) = true ↔
      remaining argv = [] ∧ (gathered argv).help = false := by
    simp [gathered]
  rw [parse, readOptions_eq]
  exact ite_congr (propext hmissing) (fun _ => rfl) fun _ => rfl

theorem parse_eq_ok_iff :
    parse argv = .ok args ↔ (remaining argv ≠ [] ∨ (gathered argv).help) ∧ args = gathered argv := by
  rw [parse_eq]
  split
  next hmissing => simp [hmissing.1, hmissing.2]
  next hpresent =>
    rw [not_and_or, Bool.not_eq_false] at hpresent
    rw [and_iff_right hpresent, Except.ok.injEq]
    exact eq_comm

theorem parse_eq_error_iff :
    parse argv = .error .noExpression ↔ remaining argv = [] ∧ (gathered argv).help = false := by
  rw [parse_eq]
  split
  next hmissing => simp [hmissing]
  next hpresent => simp [hpresent]

theorem verbose_gathered (argv : List String) :
    (gathered argv).verbose ↔ "-v" ∈ leading argv ∨ "--verbose" ∈ leading argv := by
  rw [← any_verboseOptions_iff]
  simp [gathered, switched]

theorem help_gathered (argv : List String) :
    (gathered argv).help ↔ "-h" ∈ leading argv ∨ "--help" ∈ leading argv := by
  rw [← any_helpOptions_iff]
  simp [gathered, switched]

theorem eq_gathered_iff :
    args = gathered argv ↔
      (args.verbose ↔ "-v" ∈ leading argv ∨ "--verbose" ∈ leading argv) ∧
        (args.help ↔ "-h" ∈ leading argv ∨ "--help" ∈ leading argv) ∧
        args.tokens = remaining argv := by
  rw [← verbose_gathered, ← help_gathered, ← Bool.eq_iff_iff, ← Bool.eq_iff_iff]
  obtain ⟨verbose, help, tokens⟩ := args
  exact Arguments.mk.injEq .. ▸ Iff.rfl

theorem behind_eq (argv : List String) :
    argv.dropWhile isOption = remaining argv ∨ argv.dropWhile isOption = "--" :: remaining argv := by
  unfold remaining
  dsimp only
  split
  next hfirst =>
    obtain ⟨tokens, hbehind⟩ := List.head?_eq_some_iff.1 hfirst
    rw [hbehind]
    exact .inr rfl
  next => exact .inl rfl

theorem eq_leading_append_remaining (argv : List String) :
    argv = leading argv ++ remaining argv ∨ argv = leading argv ++ "--" :: remaining argv := by
  have hsplit : leading argv ++ argv.dropWhile isOption = argv := List.takeWhile_append_dropWhile
  rcases behind_eq argv with hbehind | hbehind
  · exact .inl (hbehind ▸ hsplit.symm)
  · exact .inr (hbehind ▸ hsplit.symm)

theorem mem_remaining {token : String} (hmem : token ∈ argv.dropWhile isOption)
    (hdashes : token ≠ "--") : token ∈ remaining argv := by
  rcases behind_eq argv with hbehind | hbehind
  · rwa [hbehind] at hmem
  · rw [hbehind] at hmem
    exact (List.mem_cons.1 hmem).resolve_left hdashes

section Dashes

variable (hflags : ∀ flag ∈ flags, isOption flag)

include hflags

theorem leading_dashes (tokens : List String) : leading (flags ++ "--" :: tokens) = flags := by
  have hstop : ¬isOption "--" := by decide
  rw [leading, List.takeWhile_append_of_pos hflags, List.takeWhile_cons_of_neg hstop, List.append_nil]

theorem remaining_dashes (tokens : List String) : remaining (flags ++ "--" :: tokens) = tokens := by
  have hstop : ¬isOption "--" := by decide
  rw [remaining, List.dropWhile_append_of_pos hflags, List.dropWhile_cons_of_neg hstop]
  rfl

theorem parse_dashes (htokens : tokens ≠ []) :
    parse (flags ++ "--" :: tokens) = .ok { switched {} flags with tokens } := by
  rw [parse_eq_ok_iff, remaining_dashes hflags, gathered, leading_dashes hflags, remaining_dashes hflags]
  exact ⟨.inl htokens, rfl⟩

end Dashes

/-- Arguments are their leading options and what remains, but for a `--` between them, and are read
exactly as that. They are refused exactly if nothing remains and no help is asked for. Behind options
that a `--` ends everything remains. -/
theorem parse_splits (argv : List String) :
    (argv = leading argv ++ remaining argv ∨ argv = leading argv ++ "--" :: remaining argv) ∧
      (∀ args, parse argv = .ok args ↔
        (args.verbose ↔ "-v" ∈ leading argv ∨ "--verbose" ∈ leading argv) ∧
          (args.help ↔ "-h" ∈ leading argv ∨ "--help" ∈ leading argv) ∧
          args.tokens = remaining argv ∧ (args.tokens ≠ [] ∨ args.help)) ∧
      (parse argv = .error .noExpression ↔
        remaining argv = [] ∧ ¬("-h" ∈ leading argv ∨ "--help" ∈ leading argv)) ∧
      ∀ flags tokens, (∀ flag ∈ flags, isOption flag) → tokens ≠ [] →
        ∃ args, parse (flags ++ "--" :: tokens) = .ok args ∧ args.tokens = tokens := by
  refine ⟨eq_leading_append_remaining argv, fun args => ?_, ?_, fun flags tokens hflags htokens => ?_⟩
  · rw [parse_eq_ok_iff, and_comm]
    constructor
    · rintro ⟨rfl, hpresent⟩
      exact ⟨verbose_gathered argv, help_gathered argv, rfl, hpresent⟩
    · rintro ⟨hverbose, hhelp, htokens, hpresent⟩
      obtain rfl := eq_gathered_iff.2 ⟨hverbose, hhelp, htokens⟩
      exact ⟨rfl, hpresent⟩
  · rw [parse_eq_error_iff, ← help_gathered, Bool.not_eq_true]
  · exact ⟨_, parse_dashes hflags htokens, rfl⟩

theorem parse_splits_flag_behind :
    (∀ flag ∈ ["--verbose", "-v"], isOption flag) ∧ ["--", "-h"] ≠ [] ∧
      ∃ args, parse ["--verbose", "-v", "--", "--", "-h"] = .ok args ∧ args.tokens = ["--", "-h"] := by
  have hflags : ∀ flag ∈ ["--verbose", "-v"], isOption flag := by decide
  have htokens : ["--", "-h"] ≠ [] := by decide
  exact ⟨hflags, htokens, (parse_splits []).2.2.2 _ _ hflags htokens⟩

end Abacus.CommandLine.Arguments
