import Abacus.CommandLine.Run
import Abacus.Proofs.CommandLine.Streams

namespace Abacus.CommandLine

open Sink (bytes)

variable {argv : List String} {args : Arguments} {out err : Sink}

/-- Pieces with a newline behind them. -/
def line (pieces : List String) : List String := pieces ++ ["\n"]

theorem bytes_line (pieces : List String) :
    bytes (line pieces) = Text.Utf8.encode (String.join pieces ++ "\n").toList := by
  rw [line, Sink.bytes_append, Sink.bytes_eq_encode, String.toList_append, Text.Utf8.encode_append]
  rfl

theorem bytes_unexpectedError (reason : String) :
    bytes (line (unexpectedError reason)) =
      Text.Utf8.encode ("Unexpected error: " ++ reason ++ "\n").toList := by
  simp [bytes_line, unexpectedError]

theorem bytes_notice (failure : Failure) :
    bytes (line [notice failure]) = Text.Utf8.encode (notice failure ++ "\n").toList := by
  simp [bytes_line]

/-- What is told of a failed run. -/
def Trouble.told : Trouble → List String
  | calculation failure => line [notice failure]
  | trouble => line (unexpectedError trouble.message)

/-- What a run shows, how it exits and what it tells, over streams that take everything. -/
structure Plan where
  shown : List String
  exit : Exit
  told : List String

namespace Plan

/-- Fails after something was shown. -/
def failed (shown : List String) (trouble : Trouble) : Plan := ⟨shown, trouble.exit, trouble.told⟩

/-- The line that shows a cleaned expression, if it is asked for. -/
def parsed (args : Arguments) (text : String) : List String :=
  if args.verbose then line ["Parsed: ", text] else []

/-- Where there is a value, it is shown behind the expression. -/
def ofValue (shown : List String) : Except Failure Binary64 → Plan
  | .error failure => failed shown (.ofFailure failure)
  | .ok value => ⟨shown ++ line ["Result: ", value.resultText], .success, []⟩

def ofCleaned (args : Arguments) : Except Failure String → Plan
  | .error failure => failed [] (.ofFailure failure)
  | .ok text => ofValue (parsed args text) (compute text)

def ofArguments (args : Arguments) : Plan :=
  if args.help then ⟨line [helpText], .success, []⟩ else ofCleaned args (clean args.expression)

def ofArgv (argv : List String) : Plan :=
  match Arguments.parse argv with
  | .error _ => ⟨[], .userError, line [usage]⟩
  | .ok args => ofArguments args

/-- The plan once its output is written. If that was cut short, nothing else is told of. -/
def after (plan : Plan) (out : Sink) : Plan :=
  match out.writeAll plan.shown with
  | (_, true) => plan
  | (done, false) => failed plan.shown (.write done.refusal)

/-- How the plan ends over streams that may be cut short, and what these are then. -/
def follow (plan : Plan) (out err : Sink) : Exit × Sink × Sink :=
  ((plan.after out).exit, (out.writeAll plan.shown).1, (err.writeAll (plan.after out).told).1)

/-- The fields stand apart, so that no proof looks into a text that is shown. -/
theorem follow_mk (shown : List String) (exit : Exit) (told : List String) (out err : Sink) :
    follow ⟨shown, exit, told⟩ out err =
      match out.writeAll shown with
      | (done, true) => (exit, done, (err.writeAll told).1)
      | (done, false) => (.unexpected, done, (err.writeAll (Trouble.write done.refusal).told).1) := by
  rw [follow, after]
  rcases out.writeAll shown with ⟨done, _ | _⟩
  · rfl
  · rfl

theorem after_of_whole {plan : Plan}
    (h : (out.writeAll plan.shown).1.held = out.held ++ bytes plan.shown) : plan.after out = plan := by
  rw [← Sink.writeAll_complete_iff] at h
  unfold after
  rcases hwrite : out.writeAll plan.shown with ⟨done, _ | _⟩
  · rw [hwrite] at h
    cases h
  · rfl

theorem after_of_cut {plan : Plan}
    (h : (out.writeAll plan.shown).1.held ≠ out.held ++ bytes plan.shown) :
    plan.after out = failed plan.shown (.write out.refusal) := by
  rw [← out.writeAll_refusal plan.shown]
  rw [ne_eq, ← Sink.writeAll_complete_iff] at h
  unfold after
  rcases hwrite : out.writeAll plan.shown with ⟨done, _ | _⟩
  · rfl
  · rw [hwrite] at h
    exact absurd rfl h

theorem after_unlimited (plan : Plan) : plan.after .unlimited = plan := by
  rw [after, Sink.writeAll_unlimited]

end Plan

/-- What is seen of a run from outside, without its log. -/
def Outcome.seen (outcome : Outcome) : Exit × Sink × Sink := (outcome.exit, outcome.out, outcome.err)

/-- How a run ends once its expression is worked out. -/
def Execution.seen (execution : Execution) (err : Sink) : Exit × Sink × Sink :=
  match execution.outcome with
  | .ok () => (.success, execution.out, err)
  | .error trouble => (trouble.exit, execution.out, (err.writeAll trouble.told).1)

theorem seen_run_perform (h : Arguments.parse argv = .ok args) (hhelp : args.help = false) :
    (run argv out err).seen = (perform args out).seen err := by
  rw [run, h]
  dsimp only
  rw [if_neg (by simp [hhelp]), Execution.seen]
  cases (perform args out).outcome with
  | ok => rfl
  | error trouble => cases trouble <;> rfl

theorem writeAll_parsed (args : Arguments) (text : String) (out : Sink) :
    (if args.verbose then out.writeLine ["Parsed: ", text] else (out, true)) =
      out.writeAll (Plan.parsed args text) := by
  unfold Plan.parsed
  split <;> rfl

theorem seen_perform (args : Arguments) (out err : Sink) :
    (perform args out).seen err = (Plan.ofCleaned args (clean args.expression)).follow out err := by
  unfold perform clean
  dsimp only
  cases (cleaning args.expression).outcome with
  | error failure => rfl
  | ok text =>
    dsimp only [Plan.ofCleaned, compute]
    rw [writeAll_parsed]
    cases (computing text).outcome with
    | error failure =>
      rw [Plan.ofValue, Plan.failed, Plan.follow_mk]
      rcases out.writeAll (Plan.parsed args text) with ⟨shown, _ | _⟩
      · rfl
      · rfl
    | ok value =>
      have hresult (shown : Sink) : shown.writeLine ["Result: ", value.resultText] =
          shown.writeAll (line ["Result: ", value.resultText]) := rfl
      rw [Plan.ofValue, Plan.follow_mk, Sink.writeAll_append]
      rcases out.writeAll (Plan.parsed args text) with ⟨shown, _ | _⟩
      -- A value is not shown behind an expression that was cut short.
      · rfl
      dsimp only
      rw [hresult]
      rcases shown.writeAll (line ["Result: ", value.resultText]) with ⟨done, _ | _⟩
      · rfl
      · rfl

theorem seen_run_help (h : Arguments.parse argv = .ok args) (hhelp : args.help) :
    (run argv out err).seen = (Plan.ofArguments args).follow out err := by
  rw [run, h, Plan.ofArguments, if_pos hhelp]
  dsimp only
  rw [if_pos hhelp]
  have hshown : out.writeLine [helpText] = out.writeAll (line [helpText]) := rfl
  rw [hshown, Plan.follow_mk]
  rcases out.writeAll (line [helpText]) with ⟨done, _ | _⟩
  · rfl
  · rfl

/-- A run follows its plan. -/
theorem seen_run (argv : List String) (out err : Sink) :
    (run argv out err).seen = (Plan.ofArgv argv).follow out err := by
  unfold Plan.ofArgv
  cases hparse : Arguments.parse argv with
  | error fault =>
    rw [run, hparse]
    rfl
  | ok args =>
    dsimp only
    by_cases hhelp : args.help
    · exact seen_run_help hparse hhelp
    · have hexpression : args.help = false := by simpa using hhelp
      rw [seen_run_perform hparse hexpression, seen_perform, Plan.ofArguments, if_neg hhelp]

theorem exit_run (argv : List String) (out err : Sink) :
    (run argv out err).exit = ((Plan.ofArgv argv).after out).exit :=
  congrArg Prod.fst (seen_run argv out err)

theorem out_run (argv : List String) (out err : Sink) :
    (run argv out err).out = (out.writeAll (Plan.ofArgv argv).shown).1 :=
  congrArg (fun seen => seen.2.1) (seen_run argv out err)

theorem err_run (argv : List String) (out err : Sink) :
    (run argv out err).err = (err.writeAll ((Plan.ofArgv argv).after out).told).1 :=
  congrArg (fun seen => seen.2.2) (seen_run argv out err)

section Free

variable (argv : List String)

theorem exit_run_unlimited (err : Sink) : (run argv .unlimited err).exit = (Plan.ofArgv argv).exit := by
  rw [exit_run, Plan.after_unlimited]

theorem out_run_unlimited (err : Sink) :
    (run argv .unlimited err).out.held = bytes (Plan.ofArgv argv).shown := by
  rw [out_run, Sink.writeAll_unlimited]
  rfl

theorem err_run_unlimited (out : Sink) :
    (run argv out .unlimited).err.held = bytes ((Plan.ofArgv argv).after out).told := by
  rw [err_run, Sink.writeAll_unlimited]
  rfl

end Free

/-- Over streams that take everything a run shows, tells and ends with what it set out to. -/
theorem run_unlimited {plan : Plan} (h : Plan.ofArgv argv = plan) :
    let outcome := run argv .unlimited .unlimited
    outcome.exit = plan.exit ∧ outcome.out.held = bytes plan.shown ∧
      outcome.err.held = bytes plan.told := by
  intro outcome
  subst h
  refine ⟨exit_run_unlimited argv _, out_run_unlimited argv _, ?_⟩
  rw [err_run_unlimited, Plan.after_unlimited]

/-- Over any streams that start empty, the output is a front of what is shown over streams that take
everything. A run that shows all of it ends in the same way, and one that does not ends with the
refusal. What becomes of the diagnostics changes nothing else. -/
theorem run_cut_short (argv : List String) {out err : Sink} (hout : out.held = [])
    (herr : err.held = []) :
    let free := run argv .unlimited .unlimited
    let actual := run argv out err
    let attempted := run argv out .unlimited
    actual.out.held <+: free.out.held ∧
      (actual.out.held = free.out.held →
        actual.exit = free.exit ∧ attempted.err.held = free.err.held) ∧
      (actual.out.held ≠ free.out.held →
        actual.exit = .unexpected ∧ actual.exit.code = 2 ∧
          attempted.err.Holds ("Unexpected error: " ++ out.refusal ++ "\n")) ∧
      actual.exit = attempted.exit ∧ actual.out = attempted.out ∧
      actual.err.held <+: attempted.err.held := by
  intro free actual attempted
  have hfree : out.held ++ bytes (Plan.ofArgv argv).shown = free.out.held := by
    rw [hout, List.nil_append]
    exact (out_run_unlimited argv _).symm
  have hactual : (out.writeAll (Plan.ofArgv argv).shown).1 = actual.out := (out_run argv out err).symm
  have hexit : actual.exit = ((Plan.ofArgv argv).after out).exit := exit_run argv out err
  have htold : attempted.err.held = bytes ((Plan.ofArgv argv).after out).told :=
    err_run_unlimited argv out
  refine ⟨?_, fun hwhole => ?_, fun hcut => ?_, ?_, ?_, ?_⟩
  · rw [← hfree, ← hactual]
    exact out.writeAll_held_prefix (Plan.ofArgv argv).shown
  · have hafter : (Plan.ofArgv argv).after out = Plan.ofArgv argv :=
      Plan.after_of_whole (by rw [hactual, hfree, hwhole])
    have htells : free.err.held = bytes (Plan.ofArgv argv).told := by
      rw [err_run_unlimited, Plan.after_unlimited]
    rw [hexit, htold, hafter, htells]
    exact ⟨(exit_run_unlimited argv _).symm, rfl⟩
  · have hafter : (Plan.ofArgv argv).after out =
        .failed (Plan.ofArgv argv).shown (.write out.refusal) :=
      Plan.after_of_cut (by rwa [hactual, hfree])
    rw [hafter] at hexit htold
    exact ⟨hexit, congrArg Exit.code hexit, htold.trans (bytes_unexpectedError _)⟩
  · rw [hexit]
    exact (exit_run argv out _).symm
  · rw [← hactual]
    exact (out_run argv out _).symm
  · have hfront := err.writeAll_held_prefix ((Plan.ofArgv argv).after out).told
    rwa [herr, List.nil_append, ← htold, ← err_run] at hfront

/-- The output takes ten bytes and the error stream five. The division is never told of. -/
theorem run_cut_short_parsed :
    let out : Sink := ⟨fun held _ => 10 - held.length, "disk full", []⟩
    let err : Sink := ⟨fun held _ => 5 - held.length, "", []⟩
    let actual := run ["-v", "1/0"] out err
    out.held = [] ∧ err.held = [] ∧ actual.out.Holds "Parsed: 1/" ∧ actual.exit = .unexpected ∧
      (run ["-v", "1/0"] out .unlimited).err.Holds "Unexpected error: disk full\n" ∧
      actual.err.Holds "Unexp" := by
  intro out err actual
  obtain ⟨_, _, hcut, _⟩ := run_cut_short ["-v", "1/0"] (rfl : out.held = []) (rfl : err.held = [])
  obtain ⟨hexit, _, htold⟩ := hcut (by decide +kernel)
  exact ⟨rfl, rfl, by decide +kernel, hexit, htold, by decide +kernel⟩

end Abacus.CommandLine
