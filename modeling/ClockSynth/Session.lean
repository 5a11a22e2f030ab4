import ClockSynth.Family.Registry
import ClockSynth.Plan

/-!
# Sessions

A `Session` holds what commands share: the registry of families, the log and the plans by name.
`Session.run` takes one command and gives the session after it, the answer, and the lines that the
log, as it stood before the command, wrote. A plan keeps the family that it was created on, whatever
is registered later.
-/

namespace ClockSynth

structure Session where
  families : Registry := .builtin
  log : Log := {}
  plans : Record Plan := ∅

/-- Texts that depend on the clock: the time of day, and how long a search took. -/
structure Clock where
  now : String
  elapsed : String
deriving DecidableEq, Repr, Inhabited

/-- How a plan is created: on which family, and with which cap on its search. -/
structure PlanOptions where
  family : String := Family.ecp5.id
  cap : Option Float := none
deriving DecidableEq, Inhabited

/-- A command that reads or changes what the session holds. -/
inductive Command where
  | registerFamily (f : Family)
  | configureLog (change : LogChange)
  | resetLog
  | write (event : Event)
  | solve (problem : Problem) (cap : Option Float)
  | createPlan (id : String) (options : PlanOptions)
  | plan (id : String) (call : Plan.Call)

inductive Answer where
  | done
  | outcome (o : Outcome)
  | plan (a : Plan.Answer)

/-- What a command leaves behind, with all that there is to log. -/
structure Session.Reply where
  session : Session
  result : Except Error Answer
  events : List Event := []

namespace Session

/-- Creates a plan. An older plan of that name is gone even if the family is unknown. -/
def createPlan (s : Session) (id : String) (options : PlanOptions) : Reply :=
  let s := { s with plans := s.plans.erase id }
  match s.families.find options.family with
  | .error e => ⟨s, .error e, []⟩
  | .ok f =>
    ⟨{ s with plans := s.plans.insert id { family := f, cap := options.cap } }, .ok .done,
      [Plan.creation f]⟩

def callPlan (s : Session) (elapsed : String) (id : String) (call : Plan.Call) : Reply :=
  match s.plans.get? id with
  | none => ⟨s, .error (.unknownPlan id), []⟩
  | some p =>
    let r := p.call elapsed call
    ⟨{ s with plans := s.plans.insert id r.plan }, r.result.map .plan, r.events⟩

def step (s : Session) (elapsed : String) : Command → Reply
  | .registerFamily f =>
    match s.families.register f with
    | .error e => ⟨s, .error e, []⟩
    | .ok families => ⟨{ s with families }, .ok .done, []⟩
  | .configureLog change => ⟨{ s with log := s.log.configure change }, .ok .done, []⟩
  | .resetLog => ⟨{ s with log := .reset }, .ok .done, []⟩
  | .write event => ⟨s, .ok .done, [event]⟩
  | .solve problem cap =>
    let outcome := problem.solve cap
    ⟨s, .ok (.outcome outcome), outcome.events elapsed⟩
  | .createPlan id options => s.createPlan id options
  | .plan id call => s.callPlan elapsed id call

/-- Carries out a command and writes what the log takes. -/
def run (s : Session) (clock : Clock) (c : Command) : Session × Except Error Answer × List Line :=
  let r := s.step clock.elapsed c
  (r.session, r.result, s.log.lines clock.now r.events)

end Session

end ClockSynth
