import ClockSynth.Value

/-!
# Log lines

The library offers an `Event` for everything that it could log and leaves it to a `Log` which of
them become lines. A log has a level and, if wanted, a list of sources that it is limited to; an
empty list does not limit it. An event passes if its channel is no more verbose than the level and
its source is allowed (`Log.passes`), judged with the settings at the time of the event.

A change can leave a setting out, and then it stays, or give it, and then it is overwritten, also
where it is given without a value. The sources that a log allows follow the lists that it is given,
and nothing else (`Log.configure`).
-/

namespace ClockSynth

/-- How much is logged, from nothing to everything. -/
inductive Level where
  | none
  | error
  | warn
  | info
  | debug
deriving DecidableEq, Repr, Inhabited

/-- Levels in the order of their verbosity. -/
def Level.rank : Level → Nat
  | none => 0
  | error => 1
  | warn => 2
  | info => 3
  | debug => 4

inductive Channel where
  | error
  | warn
  | info
  | debug
deriving DecidableEq, Repr, Inhabited

/-- The least level that a channel is logged at. -/
def Channel.level : Channel → Level
  | error => .error
  | warn => .warn
  | info => .info
  | debug => .debug

/-- Something that could be logged. -/
structure Event where
  channel : Channel
  source : String
  content : List Value
deriving Inhabited

structure Line where
  channel : Channel
  heading : String
  content : List Value
deriving Inhabited

/-- How a log is set, as it reports it; any setting may be without a value. -/
structure LogSettings where
  level : Option Level := some .warn
  sources : Option (List String) := none
  timestamps : Option Bool := some false
deriving DecidableEq, Repr, Inhabited

/-- A change of settings. A setting is left out (`none`), or given, and then with a value or without
one (`some none`). -/
structure LogChange where
  level : Option (Option Level) := none
  sources : Option (Option (List String)) := none
  timestamps : Option (Option Bool) := none
deriving DecidableEq, Repr, Inhabited

/-- A log keeps each allowed source once, beside the settings that it reports. -/
structure Log where
  settings : LogSettings := {}
  allowed : List String := []
deriving DecidableEq, Repr, Inhabited

namespace Log

/-- What is given overwrites the settings. The allowed sources change only for a list. -/
def configure (l : Log) (c : LogChange) : Log where
  settings :=
    { level := c.level.getD l.settings.level
      sources := c.sources.getD l.settings.sources
      timestamps := c.timestamps.getD l.settings.timestamps }
  allowed := (c.sources.join.map List.eraseDups).getD l.allowed

def reset : Log := {}

/-- Every source is allowed if none is named; a source without a name is always allowed. -/
def allows (l : Log) (source : String) : Bool :=
  source.isEmpty || l.allowed.isEmpty || l.allowed.contains source

/-- Whether something of this level, from this source if it has one, is logged. A log without a
level logs nothing. -/
def passes (l : Log) (level : Level) (source : Option String) : Bool :=
  level ≠ .none && l.settings.level.any (level.rank ≤ ·.rank) && source.all l.allows

/-- An event passes by its channel and its source. -/
def takes (l : Log) (e : Event) : Bool :=
  l.passes e.channel.level (some e.source)

/-- Writes an event; `now` is the time of day. -/
def line (l : Log) (now : String) (e : Event) : Line where
  channel := e.channel
  heading :=
    (if l.settings.timestamps = some true then now ++ " " else "") ++ "[" ++ e.source ++ "]"
  content := e.content

/-- The lines that are written of the events offered. -/
def lines (l : Log) (now : String) (events : List Event) : List Line :=
  (events.filter l.takes).map (l.line now)

end Log

end ClockSynth
