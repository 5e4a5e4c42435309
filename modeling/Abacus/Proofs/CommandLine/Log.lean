import Abacus.Proofs.CommandLine.Agreement

namespace Abacus

open Abacus.Expr (parse)

variable {raw text : String} {failure : Failure} {value : Binary64} {fault : Fault} {tree : Expr}
  {events : List Event}

/-- What is logged where a failure arises. Nothing is rejected by a fault. -/
inductive Rejected (raw : String) : Failure → List Event → Prop where
  | character (found : Char) :
    Rejected raw (.invalidCharacter found)
      [⟨"rejecting expression with disallowed character", [("found", .text (.singleton found))]⟩]
  | parentheses (opened closed : Nat) :
    Rejected raw (.unbalancedParentheses opened closed)
      [⟨"rejecting expression with unbalanced parentheses",
        [("open", .count opened), ("close", .count closed)]⟩]
  | shape {text : String} (kept : clean raw = .ok text) :
    Rejected raw .invalidStructure
      [⟨"rejecting expression with non-arithmetic structure", [("src", .text text)]⟩]
  | fault (fault : Fault) : Rejected raw (.evaluation fault) []

theorem Rejected.of_fault (h : Rejected raw (.evaluation fault) events) : events = [] := by
  cases h
  rfl

/-- A value is logged with the cleaned text that it is of. -/
def valued (text : String) (value : Binary64) : Event :=
  ⟨"evaluated expression", [("src", .text text), ("value", .number value)]⟩

theorem cleaning_cases (raw : String) :
    (∃ text, cleaning raw = ⟨[], .ok text⟩) ∨
      ∃ failure events, cleaning raw = ⟨events, .error failure⟩ ∧ Rejected raw failure events := by
  unfold cleaning
  dsimp only
  split
  next found _ => exact .inr ⟨_, _, rfl, .character found⟩
  next =>
    split
    next => exact .inl ⟨_, rfl⟩
    next => exact .inr ⟨_, _, rfl, .parentheses _ _⟩

theorem computing_of_error (h : parse text = .error fault) :
    computing text = ⟨[], .error (.evaluation fault)⟩ := by
  unfold computing
  rw [h]
  rfl

theorem computing_of_ok (h : parse text = .ok tree) :
    computing text =
      if tree.isArithmetic then
        match tree.value with
        | .ok value => ⟨[valued text value], .ok value⟩
        | .error failure => ⟨[], .error failure⟩
      else
        .refuse ⟨"rejecting expression with non-arithmetic structure", [("src", .text text)]⟩
          .invalidStructure := by
  unfold computing
  rw [h]
  change (if tree.isArithmetic then _ else _ : Traced Failure Binary64) = _
  congr 1
  cases tree.value <;> rfl

theorem computing_cases (kept : clean raw = .ok text) :
    (∃ value, computing text = ⟨[valued text value], .ok value⟩) ∨
      ∃ failure events, computing text = ⟨events, .error failure⟩ ∧ Rejected raw failure events := by
  cases hparse : parse text with
  | error fault => exact .inr ⟨_, _, computing_of_error hparse, .fault fault⟩
  | ok tree =>
    rw [computing_of_ok hparse]
    split
    next harithmetic =>
      rcases Expr.evaluates_of_isArithmetic harithmetic with ⟨value, hvalue⟩ | ⟨fault, -, hvalue⟩
      · exact .inl ⟨value, by rw [hvalue]⟩
      · exact .inr ⟨_, _, by rw [hvalue], .fault fault⟩
    next => exact .inr ⟨_, _, rfl, .shape kept⟩

namespace CommandLine

open Sink (bytes)

variable {argv : List String} {args : Arguments} {out err : Sink}

theorem perform_of_refused (h : cleaning args.expression = ⟨events, .error failure⟩) (out : Sink) :
    perform args out = ⟨out, events, .error (.ofFailure failure)⟩ := by
  rw [perform, h]

/-- What is worked out is not changed by a stream that takes everything. -/
theorem perform_of_kept (hout : out.TakesAll) (h : cleaning args.expression = ⟨[], .ok text⟩) :
    (perform args out).events = (computing text).events ∧
      (perform args out).outcome =
        ((computing text).outcome.map fun _ => ()).mapError .ofFailure := by
  rw [perform, h]
  dsimp only
  rw [writeAll_parsed, hout.writeAll_eq]
  dsimp only
  have hshown : (out.taking (bytes (Plan.parsed args text))).TakesAll := hout
  cases (computing text).outcome with
  | error failure => exact ⟨rfl, rfl⟩
  | ok value =>
    dsimp only
    rw [Sink.writeLine, hshown.writeAll_eq]
    exact ⟨rfl, rfl⟩

theorem perform_of_value (hout : out.TakesAll) (h : solve args.expression = .ok value) :
    ∃ text, clean args.expression = .ok text ∧ (perform args out).events = [valued text value] ∧
      (perform args out).outcome = .ok () := by
  rcases cleaning_cases args.expression with ⟨text, hcleaning⟩ | ⟨failure, events, hcleaning, -⟩
  · have kept : clean args.expression = .ok text := by rw [clean, hcleaning]
    obtain ⟨hevents, houtcome⟩ := perform_of_kept hout hcleaning
    rw [solve_of_clean_ok kept, compute] at h
    rcases computing_cases kept with ⟨other, hcomputing⟩ | ⟨failure, events, hcomputing, -⟩
    · rw [hcomputing] at h hevents houtcome
      cases h
      exact ⟨text, kept, hevents, houtcome⟩
    · rw [hcomputing] at h
      cases h
  · have refused : clean args.expression = .error failure := by rw [clean, hcleaning]
    rw [solve_of_clean_error refused] at h
    cases h

theorem perform_of_failure (hout : out.TakesAll) (h : solve args.expression = .error failure) :
    Rejected args.expression failure (perform args out).events ∧
      (perform args out).outcome = .error (.ofFailure failure) := by
  rcases cleaning_cases args.expression with
    ⟨text, hcleaning⟩ | ⟨other, events, hcleaning, hrejected⟩
  · have kept : clean args.expression = .ok text := by rw [clean, hcleaning]
    obtain ⟨hevents, houtcome⟩ := perform_of_kept hout hcleaning
    rw [solve_of_clean_ok kept, compute] at h
    rcases computing_cases kept with ⟨value, hcomputing⟩ | ⟨other, events, hcomputing, hrejected⟩
    · rw [hcomputing] at h
      cases h
    · rw [hcomputing] at h hevents houtcome
      cases h
      exact ⟨hevents ▸ hrejected, houtcome⟩
  · have refused : clean args.expression = .error other := by rw [clean, hcleaning]
    rw [solve_of_clean_error refused] at h
    cases h
    rw [perform_of_refused hcleaning]
    exact ⟨hrejected, rfl⟩

/-- What is logged of a failure once more when the user is told of it. -/
def reported : Except Trouble Unit → List Event
  | .error (.calculation failure) => [⟨"calculation failed", [("error", .text failure.message)]⟩]
  | _ => []

theorem events_run_expression (hparse : Arguments.parse argv = .ok args) (hhelp : args.help = false) :
    (run argv out err).events =
      (perform args out).events ++ reported (perform args out).outcome := by
  rw [run, hparse]
  dsimp only
  rw [if_neg (by simp [hhelp])]
  cases (perform args out).outcome with
  | ok => exact (List.append_nil _).symm
  | error trouble =>
    cases trouble with
    | calculation failure => rfl
    | outOfRange | write => exact (List.append_nil _).symm

theorem events_run_help (hparse : Arguments.parse argv = .ok args) (hhelp : args.help) :
    (run argv out err).events = [] := by
  rw [run, hparse]
  dsimp only
  rw [if_pos hhelp]
  split <;> rfl

theorem events_run_refused {fault : Arguments.Fault} (hparse : Arguments.parse argv = .error fault) :
    (run argv out err).events = [⟨"bad command line", [("error", .text fault.message)]⟩] := by
  rw [run, hparse]
  rfl

/-- The value that is logged is the last thing shown. -/
theorem result_suffix_run (hout : out.TakesAll) (hparse : Arguments.parse argv = .ok args)
    (hhelp : args.help = false) (h : solve args.expression = .ok value) :
    Text.Utf8.encode ("Result: " ++ value.resultText ++ "\n").toList <:+
      (run argv out err).out.held := by
  have hseen : (run argv out err).seen =
      (Plan.ofCleaned args (clean args.expression)).follow out err :=
    (seen_run_perform hparse hhelp).trans (seen_perform args out err)
  have hheld : (run argv out err).out =
      (out.writeAll (Plan.ofCleaned args (clean args.expression)).shown).1 :=
    congrArg (fun seen => seen.2.1) hseen
  have hlines : (unlines (resultLines (.ok value))).toList =
      ("Result: " ++ value.resultText ++ "\n").toList := by
    simp [unlines, resultLines]
  rw [hheld, hout.writeAll_eq, Sink.taking_held, Plan.bytes_ofCleaned, h, toList_unlines_append,
    Text.Utf8.encode_append, hlines]
  exact (List.suffix_append _ _).trans (List.suffix_append _ _)

/-- Over an output that takes everything the log of a run is decided by its outcome. Arguments that are
refused are logged alone, and so is the value that is shown, with the cleaned text. Nothing is logged
where help is asked for, or of a value out of range; any other failure is logged last, and once, behind
nothing but the rejection that it comes from. -/
theorem run_logs_outcome (argv : List String) (hout : out.TakesAll) (err : Sink) :
    let outcome := run argv out err
    (∀ fault, Arguments.parse argv = .error fault →
        outcome.events = [⟨"bad command line", [("error", .text fault.message)]⟩]) ∧
      ∀ args, Arguments.parse argv = .ok args →
        (args.help → outcome.events = []) ∧
        (args.help = false →
          let raw := " ".intercalate args.tokens
          (∀ value, solve raw = .ok value → ∃ text, clean raw = .ok text ∧
              outcome.events =
                [⟨"evaluated expression", [("src", .text text), ("value", .number value)]⟩] ∧
              Text.Utf8.encode ("Result: " ++ value.resultText ++ "\n").toList <:+ outcome.out.held) ∧
            (∀ fault, solve raw = .error (.evaluation fault) →
              fault = .overflow ∨ fault = .intTooLarge → outcome.events = []) ∧
            ∀ failure, solve raw = .error failure → failure ≠ .evaluation .overflow →
              failure ≠ .evaluation .intTooLarge →
              ∃ rejections, Rejected raw failure rejections ∧
                outcome.events =
                  rejections ++ [⟨"calculation failed", [("error", .text failure.message)]⟩]) := by
  intro outcome
  refine ⟨fun fault => events_run_refused, fun args hparse => ⟨events_run_help hparse, ?_⟩⟩
  intro hhelp raw
  have hevents : outcome.events = (perform args out).events ++ reported (perform args out).outcome :=
    events_run_expression hparse hhelp
  refine ⟨fun value hsolve => ?_, fun fault hsolve hrange => ?_, ?_⟩
  · obtain ⟨text, kept, hlogged, houtcome⟩ := perform_of_value hout hsolve
    rw [hlogged, houtcome] at hevents
    exact ⟨text, kept, hevents, result_suffix_run hout hparse hhelp hsolve⟩
  · obtain ⟨hrejected, houtcome⟩ := perform_of_failure hout hsolve
    rw [hrejected.of_fault, houtcome, Trouble.ofFailure_of_range hrange] at hevents
    exact hevents
  · intro failure hsolve hoverflow hint
    obtain ⟨hrejected, houtcome⟩ := perform_of_failure hout hsolve
    rw [houtcome, Trouble.ofFailure_of_ne hoverflow hint] at hevents
    exact ⟨_, hrejected, hevents⟩

/-- A half, an expression that is no arithmetic, and a division by zero, which nothing rejects. -/
theorem run_logs_outcome_half :
    let log (argv : List String) : List Event := (run argv .unlimited .unlimited).events
    Sink.unlimited.TakesAll ∧
      log ["-v"] = [⟨"bad command line", [("error", .text "no expression given")]⟩] ∧
      log ["-h", "1"] = [] ∧
      log ["2 /", "4"] = [⟨"evaluated expression", [("src", .text "2/4"), ("value", .number .half)]⟩] ∧
      log ["2 (3)"] =
        [⟨"rejecting expression with non-arithmetic structure", [("src", .text "2(3)")]⟩,
          ⟨"calculation failed", [("error", .text "Evaluation error: Invalid expression structure")]⟩] ∧
      log ["1/0"] =
        [⟨"calculation failed", [("error", .text "Evaluation error: float division by zero")]⟩] := by
  intro log
  have hall := Sink.unlimited_takesAll
  have hhalf : solve "2 / 4" = .ok .half := by decide +kernel
  have hcall : solve "2 (3)" = .error .invalidStructure := by decide +kernel
  have hzero : solve "1/0" = .error (.evaluation .divisionByZero) := by decide +kernel
  obtain ⟨hvalue, -⟩ := ((run_logs_outcome ["2 /", "4"] hall .unlimited).2 _ rfl).2 rfl
  obtain ⟨text, kept, hlogged, -⟩ := hvalue _ hhalf
  have hkept : clean "2 / 4" = .ok "2/4" := rfl
  obtain rfl := Except.ok.inj (hkept.symm.trans kept)
  obtain ⟨-, -, hstructure⟩ := ((run_logs_outcome ["2 (3)"] hall .unlimited).2 _ rfl).2 rfl
  obtain ⟨rejections, hrejected, hcalled⟩ := hstructure _ hcall (by decide) (by decide)
  obtain ⟨-, -, hfault⟩ := ((run_logs_outcome ["1/0"] hall .unlimited).2 _ rfl).2 rfl
  obtain ⟨nothing, hnothing, hdivided⟩ := hfault _ hzero (by decide) (by decide)
  rw [hnothing.of_fault] at hdivided
  refine ⟨hall, (run_logs_outcome ["-v"] hall .unlimited).1 _ rfl,
    ((run_logs_outcome ["-h", "1"] hall .unlimited).2 _ rfl).1 rfl, hlogged, ?_, hdivided⟩
  cases hrejected with
  | @shape text kept =>
    have hkept : clean "2 (3)" = .ok "2(3)" := rfl
    obtain rfl := Except.ok.inj (hkept.symm.trans kept)
    exact hcalled

end CommandLine

end Abacus
