import ClockSynth.Proofs.Session

/-!
# Logging does not interfere

What a session answers, and what becomes of its families and plans, does not depend on how its log
is set: sessions that agree but for their logs go on agreeing, whatever commands they are given
(`Agrees.run`, `Run.agrees`). A log decides only which lines are written. These are the lines that a
log of everything would write, less those that it does not let pass (`run_with_log`).
-/

namespace ClockSynth

section Lines

/-- A log that lets everything pass and writes no times. -/
def Log.verbose : Log where
  settings := { level := some .debug }

/-- The source in the heading of a line without a time. -/
def Line.source (line : Line) : String :=
  String.ofList line.heading.toList.tail.dropLast

/-- Puts the time in front of a line, if this log writes times. -/
def Log.stamp (l : Log) (now : String) (line : Line) : Line :=
  { line with heading := (if l.settings.timestamps = some true then now ++ " " else "") ++ line.heading }

namespace Log

theorem takes_verbose (e : Event) : verbose.takes e = true := by
  obtain ⟨channel, source, content⟩ := e
  cases channel <;> simp [takes, passes, allows, verbose, Channel.level, Level.rank]

theorem source_line_verbose (now : String) (e : Event) :
    (verbose.line now e).source = e.source := by
  simp [line, verbose, Line.source]

theorem stamp_line_verbose (l : Log) (now now' : String) (e : Event) :
    l.stamp now (verbose.line now' e) = l.line now e := by
  simp [stamp, line, verbose, String.append_assoc]

/-- A log writes what the log of everything does, less what does not pass. -/
theorem lines_eq_filter (l : Log) (now now' : String) (events : List Event) :
    l.lines now events
      = ((verbose.lines now' events).filter fun line =>
          l.passes line.channel.level (some line.source)).map (l.stamp now) := by
  have hall : events.filter verbose.takes = events :=
    List.filter_eq_self.2 fun e _ => takes_verbose e
  have hpasses : (fun line => l.passes line.channel.level (some line.source)) ∘ verbose.line now'
      = l.takes := by
    funext e
    rw [Function.comp_apply, source_line_verbose]
    rfl
  rw [lines, lines, hall, List.filter_map, hpasses, List.map_map]
  exact List.map_congr_left fun e _ => (stamp_line_verbose l now now' e).symm

end Log

end Lines

namespace Plan

theorem finalize_elapsed (p : Plan) (elapsed elapsed' : String) :
    (p.finalize elapsed).plan = (p.finalize elapsed').plan
      ∧ (p.finalize elapsed).result = (p.finalize elapsed').result := by
  unfold finalize
  split
  · exact ⟨rfl, rfl⟩
  · split
    · exact ⟨rfl, rfl⟩
    · unfold solve
      dsimp only
      split <;> exact ⟨rfl, rfl⟩

/-- A call does the same however long a search takes; only what there is to log may tell. -/
theorem call_elapsed (p : Plan) (elapsed elapsed' : String) (c : Call) :
    (p.call elapsed c).plan = (p.call elapsed' c).plan
      ∧ (p.call elapsed c).result = (p.call elapsed' c).result := by
  cases c with
  | finalize =>
    obtain ⟨hplan, hresult⟩ := p.finalize_elapsed elapsed elapsed'
    exact ⟨hplan, congrArg (Except.map Answer.primitive) hresult⟩
  | _ => exact ⟨rfl, rfl⟩

end Plan

namespace Session

/-- The sessions have the same families and the same plans. -/
structure Agrees (s s' : Session) : Prop where
  families : s.families = s'.families
  plans : s.plans = s'.plans

variable {s s' t t' : Session} {entries entries' : List Entry}

theorem step_elapsed (s : Session) (elapsed elapsed' : String) (c : Command) :
    (s.step elapsed c).result = (s.step elapsed' c).result
      ∧ (s.step elapsed c).session = (s.step elapsed' c).session := by
  cases c with
  | plan id call =>
    simp only [Session.step, callPlan]
    split
    · exact ⟨rfl, rfl⟩
    · rename_i p _
      obtain ⟨hplan, hresult⟩ := p.call_elapsed elapsed elapsed' call
      rw [hplan, hresult]
      exact ⟨rfl, rfl⟩
  | _ => exact ⟨rfl, rfl⟩

/-- What a command does, and what there is to log about it, depends on the families and the plans
alone. -/
theorem Agrees.step (h : Agrees s s') (elapsed : String) (c : Command) :
    (s.step elapsed c).result = (s'.step elapsed c).result
      ∧ (s.step elapsed c).events = (s'.step elapsed c).events
      ∧ Agrees (s.step elapsed c).session (s'.step elapsed c).session := by
  obtain ⟨families, log, plans⟩ := s
  obtain ⟨families', log', plans'⟩ := s'
  obtain rfl : families = families' := h.families
  obtain rfl : plans = plans' := h.plans
  cases c with
  | registerFamily f =>
    simp only [Session.step]
    split <;> exact ⟨rfl, rfl, rfl, rfl⟩
  | createPlan id options =>
    simp only [Session.step, createPlan]
    split <;> exact ⟨rfl, rfl, rfl, rfl⟩
  | plan id call =>
    simp only [Session.step, callPlan]
    split <;> exact ⟨rfl, rfl, rfl, rfl⟩
  | _ => exact ⟨rfl, rfl, rfl, rfl⟩

theorem Agrees.run (h : Agrees s s') (clock clock' : Clock) (c : Command) :
    (s.run clock c).2.1 = (s'.run clock' c).2.1
      ∧ Agrees (s.run clock c).1 (s'.run clock' c).1 := by
  obtain ⟨hresult, -, hnext⟩ := h.step clock.elapsed c
  obtain ⟨helapsed, hsession⟩ := s'.step_elapsed clock.elapsed clock'.elapsed c
  refine ⟨hresult.trans helapsed, ?_⟩
  rw [hsession] at hnext
  exact hnext

/-- Sessions that agree give the same answers to the same commands and agree after them, however
their logs are set and changed on the way. -/
theorem Run.agrees (h : Run s entries t) (h' : Run s' entries' t') (hs : Agrees s s')
    (hc : entries.map Entry.command = entries'.map Entry.command) :
    entries.map Entry.result = entries'.map Entry.result ∧ Agrees t t' := by
  induction h generalizing s' entries' with
  | nil s =>
    cases h' with
    | nil => exact ⟨rfl, hs⟩
    | cons => cases hc
  | cons clock c _ ih =>
    cases h' with
    | nil => cases hc
    | cons clock' c' h' =>
      obtain ⟨hhead, htail⟩ := List.cons.inj hc
      obtain rfl : c = c' := hhead
      obtain ⟨hresult, hnext⟩ := hs.run clock clock' c
      obtain ⟨hresults, ht⟩ := ih h' hnext htail
      exact ⟨congrArg₂ List.cons hresult hresults, ht⟩

/-- Under any two logs a command has the same answer and leaves the same families and plans. The
lines that it writes under a log are those that it writes under a log of everything, less the ones
whose channel and source do not pass, in the same order and with the same content; only the time in
front is the log's own. What only reads the session, or computes from its arguments alone, is no
command, and writes nothing. -/
theorem run_with_log (s : Session) (l l' : Log) (clock clock' : Clock) (c : Command)
    (now : String) :
    let r := { s with log := l }.run clock c
    let r' := { s with log := l' }.run clock' c
    let all := { s with log := Log.verbose }.run ⟨now, clock.elapsed⟩ c
    r.2.1 = r'.2.1 ∧ r.1.families = r'.1.families ∧ r.1.plans = r'.1.plans
      ∧ r.2.2 = (all.2.2.filter fun line => l.passes line.channel.level (some line.source)).map
          (l.stamp clock.now) := by
  intro r r' all
  have hany (l l' : Log) : Agrees { s with log := l } { s with log := l' } := ⟨rfl, rfl⟩
  obtain ⟨hresult, hagrees⟩ := (hany l l').run clock clock' c
  refine ⟨hresult, hagrees.families, hagrees.plans, ?_⟩
  obtain ⟨-, hevents, -⟩ := (hany l Log.verbose).step clock.elapsed c
  show l.lines clock.now _ = _
  rw [hevents]
  exact l.lines_eq_filter clock.now now _

end Session

end ClockSynth
