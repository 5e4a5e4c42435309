import Abacus.Health.Arguments
import Mathlib.Data.List.Induction

namespace Abacus.Health.Arguments

/-- What is asked for on the command line. -/
inductive Setting where
  | help
  | bind (address : String)
  deriving DecidableEq, Repr

namespace Setting

def address? : Setting → Option String
  | help => none
  | bind address => some address

/-- How a setting is written. An address that follows `-b` in one argument is not empty, since `-b` alone
takes the next argument. -/
inductive Written : Setting → List String → Prop where
  | help {option : String} (option_mem : option ∈ ["-h", "--help"]) : Written help [option]
  | apart {option : String} (option_mem : option ∈ ["-b", "--bind"]) (address : String) :
    Written (bind address) [option, address]
  | equals (address : String) : Written (bind address) ["--bind=" ++ address]
  | attached {address : String} (address_ne : address ≠ "") : Written (bind address) ["-b" ++ address]

/-- Settings as they are written, one behind the other. -/
inductive Listed : List Setting → List String → Prop where
  | nil : Listed [] []
  | cons {setting : Setting} {settings : List Setting} {written argv : List String}
    (first : Written setting written) (others : Listed settings argv) :
    Listed (setting :: settings) (written ++ argv)

/-- What is said of arguments that start with no setting: the first of them is named. -/
inductive Refused : List String → String → Prop where
  | unexpected {arg : String} (startsNone : ∀ setting written, ¬Written setting (arg :: written))
    (behind : List String) : Refused (arg :: behind) ("unexpected argument: " ++ arg)
  | missingAddress {option : String} (option_mem : option ∈ ["-b", "--bind"]) :
    Refused [option] (option ++ " requires an address argument")

end Setting

open Setting (Written Listed Refused)

variable {args : Arguments} {setting : Setting} {settings : List Setting} {arg address text : String}
  {argv front written other behind : List String}

def apply (args : Arguments) : Setting → Arguments
  | .help => { args with help := true }
  | .bind address => { args with bind := some address }

/-- What settings come to. The last address counts. -/
def ofSettings (settings : List Setting) : Arguments where
  bind := (settings.filterMap Setting.address?).getLast?
  help := settings.contains .help

theorem foldl_apply (settings : List Setting) : settings.foldl apply {} = ofSettings settings := by
  induction settings using List.reverseRecOn with
  | nil => rfl
  | append_singleton settings setting ih =>
    rw [List.foldl_append, ih]
    cases setting with
    | help => simp [apply, ofSettings, Setting.address?]
    | bind address => simp [apply, ofSettings, Setting.address?]

theorem eq_ofSettings_iff :
    args = ofSettings settings ↔
      (args.help ↔ .help ∈ settings) ∧
        args.bind = (settings.filterMap Setting.address?).getLast? := by
  obtain ⟨bind, help⟩ := args
  rw [ofSettings, mk.injEq, and_comm, Bool.eq_iff_iff, List.contains_iff_mem]

/-- A lead of a text, read off its characters. -/
theorem after?_toList_eq_some_iff {lead : String} {rest : List Char} :
    Text.after? lead.toList arg.toList = some rest ↔ arg = lead ++ .ofList rest := by
  rw [Text.after?_eq_some_iff, ← String.toList_inj, String.toList_append, String.toList_ofList]

theorem attached?_eq_some_iff :
    attached? arg = some address ↔
      arg = "--bind=" ++ address ∨ (address ≠ "" ∧ arg = "-b" ++ address) := by
  constructor
  · intro h
    unfold attached? at h
    split at h
    next rest hafter =>
      obtain rfl := Option.some.inj h
      exact .inl (after?_toList_eq_some_iff.1 hafter)
    next =>
      split at h
      next c rest hafter =>
        obtain rfl := Option.some.inj h
        exact .inr ⟨by simp, after?_toList_eq_some_iff.1 hafter⟩
      next => cases h
  · rintro (rfl | ⟨hne, rfl⟩)
    · have hafter : Text.after? "--bind=".toList ("--bind=" ++ address).toList = some address.toList := by
        rw [after?_toList_eq_some_iff, String.ofList_toList]
      rw [attached?, hafter]
      exact congrArg some String.ofList_toList
    · have hequals : Text.after? "--bind=".toList ("-b" ++ address).toList = none := by
        simp [Text.after?]
      have hafter : Text.after? "-b".toList ("-b" ++ address).toList = some address.toList := by
        rw [after?_toList_eq_some_iff, String.ofList_toList]
      obtain ⟨c, rest, hlist⟩ := List.exists_cons_of_ne_nil (mt String.toList_eq_nil_iff.1 hne)
      rw [attached?, hequals, hafter, hlist]
      exact congrArg some (hlist ▸ String.ofList_toList)

/-- One argument gives the address that is attached to the option in it. -/
theorem written_single_iff : Written (.bind address) [arg] ↔ attached? arg = some address := by
  rw [attached?_eq_some_iff]
  constructor
  · intro h
    cases h with
    | equals => exact .inl rfl
    | attached hne => exact .inr ⟨hne, rfl⟩
  · rintro (rfl | ⟨hne, rfl⟩)
    · exact .equals address
    · exact .attached hne

theorem read_help (h : arg ∈ ["-h", "--help"]) (behind : List String) :
    read args (arg :: behind) = read (args.apply .help) behind := by
  rw [read.eq_def]
  dsimp only
  rw [if_pos (by simpa using h)]
  rfl

theorem read_apart (h : arg ∈ ["-b", "--bind"]) (address : String) (behind : List String) :
    read args (arg :: address :: behind) = read (args.apply (.bind address)) behind := by
  have hhelp : ∀ option ∈ ["-b", "--bind"], ¬(option = "-h" ∨ option = "--help") := by decide
  rw [read, if_neg (hhelp arg h), if_pos (by simpa using h)]
  rfl

theorem read_joined (h : attached? arg = some address) (behind : List String) :
    read args (arg :: behind) = read (args.apply (.bind address)) behind := by
  have hnone : ∀ option ∈ ["-h", "--help", "-b", "--bind"], attached? option = none := by decide
  have hother : ∀ option ∈ ["-h", "--help", "-b", "--bind"], arg ≠ option := by
    rintro option hoption rfl
    rw [hnone arg hoption] at h
    cases h
  simp only [List.forall_mem_cons] at hother
  obtain ⟨hshort, hlong, hapart, hword, -⟩ := hother
  rw [read.eq_def]
  dsimp only
  rw [if_neg (not_or.2 ⟨hshort, hlong⟩), if_neg (not_or.2 ⟨hapart, hword⟩), h]
  rfl

theorem read_written (h : Written setting written) (behind : List String) :
    read args (written ++ behind) = read (args.apply setting) behind := by
  cases h with
  | help hoption => exact read_help hoption behind
  | apart hoption address => exact read_apart hoption address behind
  | equals address => exact read_joined (written_single_iff.1 (.equals address)) behind
  | attached hne => exact read_joined (written_single_iff.1 (.attached hne)) behind

theorem read_listed (h : Listed settings front) (behind : List String) :
    read args (front ++ behind) = read (settings.foldl apply args) behind := by
  induction h generalizing args with
  | nil => rfl
  | cons first _ ih => rw [List.append_assoc, read_written first, ih, List.foldl_cons]

theorem read_missingAddress (h : arg ∈ ["-b", "--bind"]) :
    read args [arg] = .error (.missingAddress arg) := by
  have hhelp : ∀ option ∈ ["-b", "--bind"], ¬(option = "-h" ∨ option = "--help") := by decide
  rw [read, if_neg (hhelp arg h), if_pos (by simpa using h)]

theorem read_unexpected (hhelp : arg ∉ ["-h", "--help"]) (hbind : arg ∉ ["-b", "--bind"])
    (hjoined : attached? arg = none) (behind : List String) :
    read args (arg :: behind) = .error (.unexpected arg) := by
  rw [read.eq_def]
  dsimp only
  rw [if_neg (by simpa using hhelp), if_neg (by simpa using hbind), hjoined]

/-- An argument that starts no setting is none of the options, and no address is attached to one. -/
theorem unexpected_iff :
    (∀ setting written, ¬Written setting (arg :: written)) ↔
      arg ∉ ["-h", "--help"] ∧ arg ∉ ["-b", "--bind"] ∧ attached? arg = none := by
  constructor
  · intro h
    refine ⟨fun hhelp => h _ _ (.help hhelp), fun hbind => h _ _ (.apart hbind ""), ?_⟩
    cases hjoined : attached? arg with
    | none => rfl
    | some address => exact absurd (written_single_iff.2 hjoined) (h _ _)
  · rintro ⟨hhelp, hbind, hjoined⟩ setting written hwritten
    cases hwritten with
    | help hoption => exact hhelp hoption
    | apart hoption => exact hbind hoption
    | equals address =>
      rw [written_single_iff.1 (.equals address)] at hjoined
      cases hjoined
    | attached hne =>
      rw [written_single_iff.1 (.attached hne)] at hjoined
      cases hjoined

theorem read_refused (h : Refused behind text) :
    (read args behind).mapError Fault.message = .error text := by
  cases h with
  | unexpected hnone behind =>
    obtain ⟨hhelp, hbind, hjoined⟩ := unexpected_iff.1 hnone
    rw [read_unexpected hhelp hbind hjoined]
    rfl
  | missingAddress hoption =>
    rw [read_missingAddress hoption]
    rfl

/-- Arguments with settings in front, and then one that is refused. -/
def Stops (argv : List String) (text : String) : Prop :=
  ∃ settings front behind, argv = front ++ behind ∧ Listed settings front ∧ Refused behind text

theorem Stops.of_refused (h : Refused argv text) : Stops argv text := ⟨[], [], argv, rfl, .nil, h⟩

theorem Stops.cons (first : Written setting written) (h : Stops argv text) :
    Stops (written ++ argv) text := by
  obtain ⟨settings, front, behind, rfl, hlisted, hrefused⟩ := h
  exact ⟨_, _, behind, (List.append_assoc ..).symm, .cons first hlisted, hrefused⟩

theorem listed_or_stops_cons (first : Written setting written)
    (h : (∃ settings, Listed settings argv) ∨ ∃ text, Stops argv text) :
    (∃ settings, Listed settings (written ++ argv)) ∨ ∃ text, Stops (written ++ argv) text := by
  rcases h with ⟨settings, hlisted⟩ | ⟨text, hstops⟩
  · exact .inl ⟨_, .cons first hlisted⟩
  · exact .inr ⟨text, hstops.cons first⟩

/-- Arguments are settings to their end, or there is one that starts none. -/
theorem listed_or_stops (argv : List String) :
    (∃ settings, Listed settings argv) ∨ ∃ text, Stops argv text := by
  induction ({} : Arguments), argv using read.induct with
  | case1 => exact .inl ⟨[], .nil⟩
  | case2 _ arg behind hhelp ih => exact listed_or_stops_cons (.help (by simpa using hhelp)) ih
  | case3 _ arg _ hbind address behind ih =>
    exact listed_or_stops_cons (.apart (by simpa using hbind) address) ih
  | case4 _ arg _ hbind =>
    exact .inr ⟨_, .of_refused (.missingAddress (by simpa using hbind))⟩
  | case5 _ arg behind _ _ address hjoined ih =>
    exact listed_or_stops_cons (written_single_iff.2 hjoined) ih
  | case6 _ arg behind hhelp hbind hnone =>
    have hstarts := unexpected_iff.2 ⟨by simpa using hhelp, by simpa using hbind, hnone⟩
    exact .inr ⟨_, .of_refused (.unexpected hstarts behind)⟩

theorem parse_listed (h : Listed settings argv) : parse argv = .ok (ofSettings settings) := by
  have hread : read {} (argv ++ []) = read (settings.foldl apply {}) [] := read_listed h []
  rwa [List.append_nil, foldl_apply, read] at hread

theorem parse_stops (h : Stops argv text) : (parse argv).mapError Fault.message = .error text := by
  obtain ⟨settings, front, behind, rfl, hlisted, hrefused⟩ := h
  rw [parse, read_listed hlisted]
  exact read_refused hrefused

theorem parse_eq_ok_iff :
    parse argv = .ok args ↔ ∃ settings, Listed settings argv ∧ args = ofSettings settings := by
  constructor
  · intro h
    rcases listed_or_stops argv with ⟨settings, hlisted⟩ | ⟨text, hstops⟩
    · rw [parse_listed hlisted] at h
      exact ⟨settings, hlisted, (Except.ok.inj h).symm⟩
    · have herror := parse_stops hstops
      rw [h] at herror
      cases herror
  · rintro ⟨settings, hlisted, rfl⟩
    exact parse_listed hlisted

theorem message_eq_error_iff :
    (parse argv).mapError Fault.message = .error text ↔ Stops argv text := by
  refine ⟨fun h => ?_, parse_stops⟩
  rcases listed_or_stops argv with ⟨settings, hlisted⟩ | ⟨other, hstops⟩
  · rw [parse_listed hlisted] at h
    cases h
  · rw [parse_stops hstops] at h
    exact Except.error.inj h ▸ hstops

theorem parse_rewritten (hfront : Listed settings front) (hwritten : Written setting written)
    (hother : Written setting other) (behind : List String) :
    parse (front ++ written ++ behind) = parse (front ++ other ++ behind) := by
  simp only [parse, List.append_assoc]
  rw [read_listed hfront, read_listed hfront, read_written hwritten, read_written hother]

/-- Arguments are read exactly if they are settings to their end. Then help is shown if it is asked for
anywhere, and the last address counts. Otherwise the argument is named at which the settings end: it
starts none, or it is the last one and its address is missing. How a setting is written does not matter,
whatever stands behind it. -/
theorem parse_reads_settings (argv : List String) :
    (∀ args, parse argv = .ok args ↔
        ∃ settings, Listed settings argv ∧ (args.help ↔ .help ∈ settings) ∧
          args.bind = (settings.filterMap Setting.address?).getLast?) ∧
      (∀ text, (parse argv).mapError Fault.message = .error text ↔
        ∃ settings front behind, argv = front ++ behind ∧ Listed settings front ∧
          Refused behind text) ∧
      ∀ settings front setting written other behind, Listed settings front →
        Written setting written → Written setting other →
        parse (front ++ written ++ behind) = parse (front ++ other ++ behind) := by
  refine ⟨fun args => ?_, fun text => message_eq_error_iff, ?_⟩
  · simp only [parse_eq_ok_iff, eq_ofSettings_iff]
  · intro settings front setting written other behind hfront hwritten hother
    exact parse_rewritten hfront hwritten hother behind

/-- Addresses that look like options, the last of two addresses, and both ways to be refused. -/
theorem parse_reads_settings_option_like :
    parse ["-b", "--help", "-h", "--bind=-b"] = .ok { bind := some "-b", help := true } ∧
      (parse ["-bx", "--port", "-b"]).mapError Fault.message =
        .error "unexpected argument: --port" ∧
      (parse ["-h", "-b"]).mapError Fault.message = .error "-b requires an address argument" ∧
      Listed [.help] ["-h"] ∧ Written (.bind "-h") ["--bind", "-h"] ∧ Written (.bind "-h") ["-b-h"] ∧
      parse (["-h"] ++ ["--bind", "-h"] ++ ["x"]) = parse (["-h"] ++ ["-b-h"] ++ ["x"]) := by
  have hhelp : Listed [.help] ["-h"] := .cons (.help (by decide)) .nil
  have hapart : Written (.bind "-h") ["--bind", "-h"] := .apart (by decide) "-h"
  have hattached : Written (.bind "-h") ["-b-h"] := @Written.attached "-h" (by decide)
  have hwhole : Listed [.bind "--help", .help, .bind "-b"] ["-b", "--help", "-h", "--bind=-b"] :=
    .cons (.apart (by decide) "--help") (.cons (.help (by decide)) (.cons (.equals "-b") .nil))
  have hfront : Listed [.bind "x"] ["-bx"] := .cons (@Written.attached "x" (by decide)) .nil
  have hport : Refused ["--port", "-b"] "unexpected argument: --port" :=
    .unexpected (unexpected_iff.2 ⟨by decide, by decide, by decide⟩) ["-b"]
  exact ⟨((parse_reads_settings _).1 _).2 ⟨_, hwhole, by decide, by decide⟩,
    ((parse_reads_settings _).2.1 _).2 ⟨_, _, _, rfl, hfront, hport⟩,
    ((parse_reads_settings _).2.1 _).2 ⟨_, ["-h"], ["-b"], rfl, hhelp, .missingAddress (by decide)⟩,
    hhelp, hapart, hattached, (parse_reads_settings []).2.2 _ _ _ _ _ _ hhelp hapart hattached⟩

end Abacus.Health.Arguments
