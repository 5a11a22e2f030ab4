import ClockSynth.Proofs.Session

/-!
# The filter of a log

A log keeps the sources that it allows beside the settings that it reports, and not every change
touches both. The settings are what the commands since the last reset gave last, the allowed sources
are those of the last list among them (`Log.foldl_after`). Sources that are given without a value
take a list out of the report and leave it in force (`Stale`). Only then does the filter differ from
the one that the report describes, and it does so unless nothing is logged anyway
(`LogSettings.admits_listed_iff`, `Run.log_filters`). A logger holds nothing but the name of its
source, and what it writes is up to the log at that time.
-/

namespace ClockSynth

section Settings

/-- The levels that are no more verbose than this one, from the least verbose on. -/
def Level.upTo : Level → List Level
  | none => [none]
  | error => [none, error]
  | warn => [none, error, warn]
  | info => [none, error, warn, info]
  | debug => [none, error, warn, info, debug]

theorem Level.mem_upTo_iff {level most : Level} : level ∈ most.upTo ↔ level.rank ≤ most.rank := by
  cases most <;> cases level <;> decide

theorem Level.error_mem_upTo {most : Level} (h : most ≠ none) : error ∈ most.upTo := by
  cases most <;> simp_all [upTo]

/-- A list of sources permits those that it names, and one that names none permits all, as does no
list. -/
def Permits (listed : Option (List String)) (name : String) : Prop :=
  ∀ names ∈ listed, names = [] ∨ name ∈ names

instance (listed : Option (List String)) (name : String) : Decidable (Permits listed name) :=
  inferInstanceAs (Decidable (∀ names ∈ listed, names = [] ∨ name ∈ names))

/-- A list that names sources always leaves out some. -/
theorem exists_not_permits {names : List String} (h : names ≠ []) :
    ∃ name, name ≠ "" ∧ ¬ Permits (some names) name := by
  obtain ⟨name, hname⟩ := Infinite.exists_notMem_finset ("" :: names).toFinset
  rw [List.mem_toFinset, List.mem_cons, not_or] at hname
  refine ⟨name, hname.1, fun hpermits => ?_⟩
  exact (hpermits names rfl).elim h hname.2

/-- What the settings let pass: levels up to their own, though never `none`, and the sources that
their list permits. No source, or one without a name, always passes. Without a level nothing does. -/
def LogSettings.Admits (settings : LogSettings) (level : Level) (source : Option String) : Prop :=
  level ≠ .none ∧ (∃ most ∈ settings.level, level ∈ most.upTo)
    ∧ ∀ name ∈ source, name = "" ∨ Permits settings.sources name

instance (settings : LogSettings) (level : Level) (source : Option String) :
    Decidable (settings.Admits level source) :=
  inferInstanceAs (Decidable (_ ∧ _ ∧ _))

theorem LogSettings.not_admits {settings : LogSettings} (h : ∀ level ∈ settings.level, level = .none)
    (level : Level) (source : Option String) : ¬ settings.Admits level source := by
  rintro ⟨hne, ⟨most, hmost, hlevel⟩, -⟩
  rw [h most hmost] at hlevel
  exact hne (List.mem_singleton.1 hlevel)

namespace Log

variable {l : Log} {listed : Option (List String)}

theorem allows_iff (h : l.allowed = (listed.map List.eraseDups).getD []) (name : String) :
    l.allows name = true ↔ name = "" ∨ Permits listed name := by
  have hmem (names : List String) : names.eraseDups = [] ↔ names = [] := by
    simp only [List.eq_nil_iff_forall_not_mem, List.mem_eraseDups]
  rw [allows, h, Bool.or_eq_true, Bool.or_eq_true, String.isEmpty_iff, List.isEmpty_iff,
    List.contains_iff_mem, or_assoc]
  cases listed <;> simp [Permits, hmem]

theorem passes_iff (h : l.allowed = (listed.map List.eraseDups).getD []) (level : Level)
    (source : Option String) :
    l.passes level source = true
      ↔ { l.settings with sources := listed }.Admits level source := by
  have hlevel : l.settings.level.any (level.rank ≤ ·.rank) = true
      ↔ ∃ most ∈ l.settings.level, level ∈ most.upTo := by
    simp only [Option.any_eq_true, decide_eq_true_iff, Level.mem_upTo_iff, Option.mem_def]
  rw [passes, Bool.and_eq_true, Bool.and_eq_true, decide_eq_true_iff, hlevel, and_assoc]
  refine and_congr_right' (and_congr_right' ?_)
  cases source with
  | none => simp
  | some name => simpa using allows_iff h name

end Log

end Settings

section Commands

/-- The list of sources that a change gives. -/
def LogChange.listed (change : LogChange) : Option (List String) :=
  change.sources.join

/-- What a command gives for a setting. -/
def Command.given? {α : Type} (setting : LogChange → Option α) : Command → Option α
  | .configureLog change => setting change
  | _ => none

def Command.isReset : Command → Bool
  | .resetLog => true
  | _ => false

/-- What the commands since the last reset gave last for a setting. -/
def lastGiven? {α : Type} (setting : LogChange → Option α) (commands : List Command) : Option α :=
  (commands.reverse.takeWhile (!·.isReset)).findSome? (Command.given? setting)

/-- The settings as the commands since the last reset gave them. -/
def LogSettings.given (commands : List Command) : LogSettings where
  level := (lastGiven? LogChange.level commands).getD (some .warn)
  sources := (lastGiven? LogChange.sources commands).getD none
  timestamps := (lastGiven? LogChange.timestamps commands).getD (some false)

/-- The sources were given last without a value, and before that, since the last reset, as a list
that is not empty. -/
def Stale (commands : List Command) : Prop :=
  lastGiven? LogChange.sources commands = some none
    ∧ ∃ names ∈ lastGiven? LogChange.listed commands, names ≠ []

variable (commands : List Command)

theorem lastGiven?_concat {α : Type} (setting : LogChange → Option α) (c : Command) :
    lastGiven? setting (commands ++ [c])
      = if c.isReset then none else (c.given? setting).or (lastGiven? setting commands) := by
  rw [lastGiven?, List.reverse_concat, List.takeWhile_cons]
  cases hc : c.isReset with
  | true => rfl
  | false => cases hg : c.given? setting <;> simp [hg, lastGiven?]

/-- The log that a list of commands leads to. -/
theorem Log.foldl_after :
    commands.foldl Log.after {}
      = { settings := .given commands
          allowed := ((lastGiven? LogChange.listed commands).map List.eraseDups).getD [] } := by
  induction commands using List.reverseRecOn with
  | nil => rfl
  | append_singleton commands c ih =>
    simp only [List.foldl_concat, LogSettings.given, lastGiven?_concat, ih]
    cases c with
    | configureLog change =>
      simp [Log.after, Log.configure, Command.isReset, Command.given?, LogChange.listed,
        Option.map_or]
    | resetLog => rfl
    | _ => rfl

/-- What is given for the sources is the last list, unless no value came after it. -/
theorem lastGiven?_sources :
    lastGiven? LogChange.sources commands = some none
      ∨ lastGiven? LogChange.sources commands
        = (lastGiven? LogChange.listed commands).map some := by
  induction commands using List.reverseRecOn with
  | nil => exact .inr rfl
  | append_singleton commands c ih =>
    simp only [lastGiven?_concat]
    cases c with
    | configureLog change =>
      simp only [Command.isReset, Command.given?, LogChange.listed]
      match change.sources with
      | none => exact ih
      | some none => exact .inl rfl
      | some (some names) => exact .inr rfl
    | resetLog => exact .inr rfl
    | _ => exact ih

variable {commands}

/-- A list that is not stale permits what the reported sources do. -/
theorem permits_listed_iff (h : ¬ Stale commands) (name : String) :
    Permits (lastGiven? LogChange.listed commands) name
      ↔ Permits (LogSettings.given commands).sources name := by
  rcases lastGiven?_sources commands with hnone | hlisted
  · have hreported : (LogSettings.given commands).sources = none := by
      rw [LogSettings.given, hnone, Option.getD_some]
    rw [hreported]
    refine iff_of_true (fun names hnames => .inl ?_) (by simp [Permits])
    by_contra hne
    exact h ⟨hnone, names, hnames, hne⟩
  · rw [LogSettings.given, hlisted]
    cases lastGiven? LogChange.listed commands <;> rfl

/-- A stale list turns away an error from some source that the report would let pass. -/
theorem Stale.exists_admits (h : Stale commands) {most : Level}
    (hmost : most ∈ (LogSettings.given commands).level) (hne : most ≠ .none) :
    ∃ name, (LogSettings.given commands).Admits .error (some name)
      ∧ name ≠ "" ∧ ¬ Permits (lastGiven? LogChange.listed commands) name := by
  obtain ⟨hgiven, names, hlisted, hnames⟩ := h
  obtain ⟨name, hempty, hpermits⟩ := exists_not_permits hnames
  refine ⟨name, ⟨by decide, ⟨most, hmost, Level.error_mem_upTo hne⟩, fun _ _ => .inr ?_⟩, hempty, ?_⟩
  · simp [LogSettings.given, hgiven, Permits]
  · rwa [Option.mem_def.1 hlisted]

/-- The report describes the filter by the last list, unless this list is stale while some level is
logged. -/
theorem LogSettings.admits_listed_iff :
    (∀ level source,
        { given commands with sources := lastGiven? LogChange.listed commands }.Admits level source
          ↔ (given commands).Admits level source)
      ↔ (Stale commands → ∀ level ∈ (given commands).level, level = .none) := by
  constructor
  · intro hall hstale most hmost
    by_contra hne
    obtain ⟨name, hadmits, hempty, hpermits⟩ := hstale.exists_admits hmost hne
    obtain ⟨-, -, hsource⟩ := (hall _ _).2 hadmits
    exact (hsource name rfl).elim hempty hpermits
  · intro h level source
    by_cases hstale : Stale commands
    · refine iff_of_false (not_admits ?_ _ _) (not_admits ?_ _ _)
      · exact h hstale
      · exact h hstale
    · refine and_congr_right' (and_congr_right' (forall₂_congr fun name _ => or_congr_right ?_))
      exact permits_listed_iff hstale name

end Commands

namespace Session

variable {s t : Session} {entries earlier later : List Entry}

/-- What a logger for this source does, whenever it was made: it asks the session that it is used
in. -/
def logger (source : String) (channel : Channel) (content : List Value) : Command :=
  .write ⟨channel, source, content⟩

/-- A level and a channel of one name. -/
inductive SameName : Level → Channel → Prop
  | error : SameName .error .error
  | warn : SameName .warn .warn
  | info : SameName .info .info
  | debug : SameName .debug .debug

theorem SameName.level_eq {level : Level} {channel : Channel} (h : SameName level channel) :
    channel.level = level := by
  cases h <;> rfl

theorem lines_logger (s : Session) (clock : Clock) (source : String) (channel : Channel)
    (content : List Value) :
    (s.run clock (logger source channel content)).2.2
      = if s.log.passes channel.level (some source) then
          [s.log.line clock.now ⟨channel, source, content⟩]
        else [] := by
  show s.log.lines clock.now [⟨channel, source, content⟩] = _
  rw [Log.lines, List.filter_singleton, Log.takes]
  cases s.log.passes channel.level (some source) <;> rfl

/-- Whatever a session has done since it began, the settings that it reports are what the commands
since the last reset gave last, and its filter goes by the last list of sources among them. The
reported settings describe this filter except where that list is stale, and there they do so only if
nothing is logged. A logger that was made in an earlier state `s` writes by the filter at the time
that it is used: one line on its channel if the level of this channel and the source pass, and
nothing if not. -/
theorem Run.log_filters (made : Run {} earlier s) (h : Run s later t) :
    let commands := (earlier ++ later).map Entry.command
    t.log.settings = .given commands
      ∧ (∀ level source, t.log.passes level source = true
          ↔ { t.log.settings with sources := lastGiven? LogChange.listed commands }.Admits
              level source)
      ∧ ((∀ level source,
            t.log.passes level source = true ↔ t.log.settings.Admits level source)
          ↔ (Stale commands → ∀ level ∈ t.log.settings.level, level = .none))
      ∧ ∀ level channel, SameName level channel → ∀ source content clock,
          (t.run clock (logger source channel content)).2.2
            = if t.log.passes level (some source) then
                [⟨channel, (if t.log.settings.timestamps = some true then clock.now ++ " " else "")
                  ++ "[" ++ source ++ "]", content⟩]
              else [] := by
  intro commands
  have hlog : t.log = commands.foldl Log.after {} := by
    rw [h.log_eq, made.log_eq, ← List.foldl_append, ← List.map_append]
  rw [Log.foldl_after] at hlog
  have hsettings : t.log.settings = .given commands := by rw [hlog]
  have hallowed : t.log.allowed
      = ((lastGiven? LogChange.listed commands).map List.eraseDups).getD [] := by rw [hlog]
  have hpasses := Log.passes_iff hallowed
  refine ⟨hsettings, hpasses, ?_, ?_⟩
  · simp only [hpasses, hsettings]
    exact LogSettings.admits_listed_iff
  · intro level channel hname source content clock
    rw [lines_logger, hname.level_eq]
    rfl

/-- A logger is made while the log is limited to another source. Then the log is reset, limited to
the source of the logger, and asked for the time alone. -/
theorem log_filters_solver :
    ∃ earlier s later t,
      earlier.map Entry.command = [.configureLog { sources := some (some ["plan"]) }]
      ∧ later.map Entry.command
        = [.resetLog,
          .configureLog { level := some (some .debug), sources := some (some ["solver", "solver"]) },
          .configureLog { timestamps := some (some true) }]
      ∧ Run {} earlier s ∧ Run s later t
      ∧ t.log.settings = ⟨some .debug, some ["solver", "solver"], some true⟩
      ∧ (∀ level source, t.log.passes level source = true ↔ t.log.settings.Admits level source)
      ∧ (t.run ⟨"noon", ""⟩ (logger "solver" .debug [])).2.2 = [⟨.debug, "noon [solver]", []⟩]
      ∧ (t.run ⟨"noon", ""⟩ (logger "plan" .error [])).2.2 = [] := by
  let s := (({} : Session).run default (.configureLog { sources := some (some ["plan"]) })).1
  have made : Run {} _ s :=
    .cons default (.configureLog { sources := some (some ["plan"]) }) <| .nil _
  have hrun : Run s _ _ :=
    .cons default .resetLog <|
    .cons default (.configureLog
      { level := some (some .debug), sources := some (some ["solver", "solver"]) }) <|
    .cons default (.configureLog { timestamps := some (some true) }) <| .nil _
  obtain ⟨hgiven, -, hagrees, hlines⟩ := made.log_filters hrun
  have hsettings : _ = LogSettings.mk (some .debug) (some ["solver", "solver"]) (some true) := hgiven
  have hpasses := hagrees.2 fun hstale => nomatch hstale.1
  refine ⟨_, s, _, _, rfl, rfl, made, hrun, hsettings, hpasses, ?_, ?_⟩
  · rw [hlines _ _ .debug, if_pos ((hpasses _ _).2 (by rw [hsettings]; decide)), hsettings]
    rfl
  · rw [hlines _ _ .error, if_neg (mt (hpasses _ _).1 (by rw [hsettings]; decide))]

/-- Sources are given without a value after a list: the report names no source any more, but one that
was not on the list is still turned away. -/
theorem exists_stale :
    ∃ entries t, entries.map Entry.command
        = [.configureLog { level := some (some .debug), sources := some (some ["a"]) },
          .configureLog { sources := some none }]
      ∧ Run {} entries t ∧ t.log.settings = ⟨some .debug, none, some false⟩
      ∧ t.log.settings.Admits .error (some "b") ∧ t.log.passes .error (some "b") = false
      ∧ (t.run default (logger "b" .error [])).2.2 = [] := by
  have hrun : Run {} _ _ :=
    .cons default
      (.configureLog { level := some (some .debug), sources := some (some ["a"]) }) <|
    .cons default (.configureLog { sources := some none }) <| .nil _
  exact ⟨_, _, rfl, hrun, rfl, by decide, by decide, rfl⟩

end Session

end ClockSynth
