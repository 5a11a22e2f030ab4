import ClockSynth.Primitive
import ClockSynth.Solver

/-!
# Clock plans

A `Plan` collects one input clock and the outputs made from it, checks each against the limits of
its family, and is solved once. The slots of its outputs count up from zero. While it is open, a
call that fails leaves it as it was; once it is solved it is closed, and every later
`Plan.finalize` rebuilds the primitive from the solution that it keeps.
-/

namespace ClockSynth

/-- The solution that a plan keeps, and the plan as it was solved. -/
structure Solution where
  snapshot : Snapshot
  configuration : Configuration
deriving DecidableEq, Inhabited

/-- A clock plan on one family; `cap` limits the search for its solution. -/
structure Plan where
  family : Family
  cap : Option Float := none
  input : Option Input := none
  requests : List Request := []
  dynamicPhase : Bool := false
  solution : Option Solution := none
deriving DecidableEq, Inhabited

/-- What an output clock may leave to its defaults. -/
structure OutputOptions where
  phase : Option Float := none
  margin : Option Float := none
  withReset : Option Bool := none
  usesDynamicPhase : Option Bool := none
deriving DecidableEq, Inhabited

inductive Plan.Call where
  | registerInput (frequency : Float) (signal : Option String)
  | registerOutput (domain : String) (frequency : Float) (options : OutputOptions)
  | enableDynamicPhase
  | snapshot
  | finalize

inductive Plan.Answer where
  | done
  | snapshot (s : Snapshot)
  | primitive (p : Primitive)

/-- What a call leaves behind: the plan, the answer, and what there is to log. -/
structure Plan.Reply (α : Type) where
  plan : Plan
  result : Except Error α
  events : List Event := []

/-- The same reply with another form of its answer. -/
def Plan.Reply.map {α β : Type} (f : α → β) (r : Plan.Reply α) : Plan.Reply β where
  plan := r.plan
  result := r.result.map f
  events := r.events

namespace Plan

def source : String := "clock-plan"

def info (text : String) : Event :=
  ⟨.info, source, [.text text]⟩

def creation (f : Family) : Event :=
  info ("Creating " ++ f.primitive ++ " plan (" ++ f.name ++ ").")

def nextSlot (p : Plan) : Float :=
  p.requests.length.toFloat

def isFinalized (p : Plan) : Bool :=
  p.solution.isSome

/-- An open plan has no solution yet. -/
def requireOpen (p : Plan) (step : PlanStep) : Except Error Unit :=
  if p.isFinalized then .error (.plan (.finalized step)) else .ok ()

/-- The input clock, if this plan takes it. -/
def admitInput (p : Plan) (frequency : Float) (signal : Option String) : Except Error Input := do
  p.requireOpen .registerInput
  if p.input.isSome then throw (.plan .inputRegistered)
  let range := p.family.limits.inputFrequency
  if !range.contains frequency then throw (.frequency .input frequency range)
  return { frequency, signal := signal.getD "clkin" }

/-- The request for an output clock, if this plan takes it. -/
def admitOutput (p : Plan) (domain : String) (frequency : Float) (options : OutputOptions) :
    Except Error Request := do
  p.requireOpen .registerOutput
  if p.input.isNone then throw (.plan .noInputYet)
  let limits := p.family.limits
  if !limits.outputFrequency.contains frequency then
    throw (.frequency (.output domain) frequency limits.outputFrequency)
  if limits.maxOutputs ≤ p.nextSlot then throw (.capacity limits.maxOutputs)
  return {
    slot := p.nextSlot
    domain, frequency
    phase := options.phase.getD 0
    margin := options.margin.getD 1e-2
    withReset := options.withReset.getD true
    usesDynamicPhase := options.usesDynamicPhase.getD true }

def registerInput (p : Plan) (frequency : Float) (signal : Option String) : Reply Unit :=
  match p.admitInput frequency signal with
  | .error e => ⟨p, .error e, []⟩
  | .ok input => ⟨{ p with input := some input }, .ok (), [info (inputReport frequency)]⟩

def registerOutput (p : Plan) (domain : String) (frequency : Float) (options : OutputOptions) :
    Reply Unit :=
  match p.admitOutput domain frequency options with
  | .error e => ⟨p, .error e, []⟩
  | .ok r => ⟨{ p with requests := p.requests ++ [r] }, .ok (), [info r.report]⟩

/-- Lets phases move while the clocks run. -/
def enableDynamicPhase (p : Plan) : Reply Unit :=
  match p.requireOpen .enableDynamicPhaseAdjust with
  | .error e => ⟨p, .error e, []⟩
  | .ok () => ⟨{ p with dynamicPhase := true }, .ok (), []⟩

def snapshot (p : Plan) : Except Error Snapshot :=
  match p.input with
  | none => .error (.plan .noInput)
  | some input => .ok ⟨p.family, input, p.requests, p.dynamicPhase⟩

end Plan

/-- What the solver is asked for a plan. -/
def Snapshot.problem (s : Snapshot) : Problem :=
  ⟨s.family, s.input.frequency, s.requests, s.dynamicPhase⟩

def Solution.primitive (s : Solution) : Except Error Primitive :=
  s.snapshot.primitive s.configuration

namespace Plan

/-- Solves the plan as it stands and keeps the solution. -/
def solve (p : Plan) (elapsed : String) (s : Snapshot) : Reply Primitive :=
  let outcome := s.problem.solve p.cap
  match outcome with
  | .failed cap _ => ⟨p, .error (.noConfiguration cap outcome.statistics), outcome.events elapsed⟩
  | .solved c _ =>
    let solution : Solution := ⟨s, c⟩
    ⟨{ p with solution := some solution }, solution.primitive, outcome.events elapsed⟩

/-- The primitive of the solution, which is searched for if the plan has none yet. -/
def finalize (p : Plan) (elapsed : String) : Reply Primitive :=
  match p.solution with
  | some s => ⟨p, s.primitive, []⟩
  | none =>
    match p.snapshot with
    | .error e => ⟨p, .error e, []⟩
    | .ok s => p.solve elapsed s

/-- Makes a call; `elapsed` says how long a search took. -/
def call (p : Plan) (elapsed : String) : Call → Reply Answer
  | .registerInput frequency signal => (p.registerInput frequency signal).map fun _ => .done
  | .registerOutput domain frequency options =>
    (p.registerOutput domain frequency options).map fun _ => .done
  | .enableDynamicPhase => p.enableDynamicPhase.map fun _ => .done
  | .snapshot => ⟨p, p.snapshot.map .snapshot, []⟩
  | .finalize => (p.finalize elapsed).map .primitive

end Plan

end ClockSynth
