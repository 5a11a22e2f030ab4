import ClockSynth.Proofs.Letter
import ClockSynth.Session

/-!
# Runs of a session

A session takes commands one after the other, and each leaves an `Entry`. A command changes the
families, the log or the plan of one name, and leaves the rest as it was (`registerFamily_frame`,
`createPlan_frame`, `callPlan_frame`). A plan stands under its name until that name is used for
another one. In between only the calls to it change it (`get?_run`), and none that fails
(`Holds.run_of_fails`). So whatever else happens it keeps the invariant of its family, as found when
it was created (`Run.plan_invariant`), and failed calls can be left out of a run without a trace
(`Run.thinned`, `Run.failed_calls_leave_no_trace`).
-/

namespace ClockSynth

/-- `kept` is `all` without some of the items that satisfy `P`. -/
inductive Thinned {α : Type} (P : α → Prop) : List α → List α → Prop
  | nil : Thinned P [] []
  | keep (a : α) {kept all : List α} : Thinned P kept all → Thinned P (a :: kept) (a :: all)
  | drop {a : α} {kept all : List α} : P a → Thinned P kept all → Thinned P kept (a :: all)

/-- The log that a command leaves. -/
def Log.after (l : Log) : Command → Log
  | .configureLog change => l.configure change
  | .resetLog => .reset
  | _ => l

namespace Session

section Families

theorem lacksLetters_of_register {r r' : Registry} {f : Family} (h : r.register f = .ok r') :
    Registry.lacksLetters f = false := by
  unfold Registry.register at h
  split at h
  · cases h
  · rename_i hf
    simpa using hf

/-- All families that a registry finds were accepted. -/
def Accepted (r : Registry) : Prop :=
  ∀ id f, r.find id = .ok f → Registry.lacksLetters f = false

theorem accepted_builtin : Accepted .builtin := by
  intro id f h
  unfold Registry.find at h
  split at h
  · rename_i g hg
    cases h
    have hmem := Record.get?_eq_some_iff.1 hg
    obtain ⟨-, rfl⟩ := Prod.mk.inj (List.mem_singleton.1 hmem)
    decide
  · cases h

theorem Accepted.register {r r' : Registry} {f : Family} (h : Accepted r)
    (hr : r.register f = .ok r') : Accepted r' := by
  intro id g hg
  by_cases hid : id = f.id
  · subst hid
    rw [Registry.find_register_self hr] at hg
    cases hg
    exact lacksLetters_of_register hr
  · rw [Registry.find_register_of_ne hr hid] at hg
    exact h id g hg

end Families

section Step

variable {s : Session} {id : String} {p : Plan} {f : Family} {cap : Option Float}

theorem run_registerFamily_of_ok {r : Registry} (h : s.families.register f = .ok r)
    (clock : Clock) :
    s.run clock (.registerFamily f) = ({ s with families := r }, .ok .done, []) := by
  simp [Session.run, step, h, Log.lines]

theorem run_registerFamily_of_error {e : Error} (h : s.families.register f = .error e)
    (clock : Clock) :
    s.run clock (.registerFamily f) = (s, .error e, []) := by
  simp [Session.run, step, h, Log.lines]

theorem registerFamily_frame (s : Session) (clock : Clock) (f : Family) :
    (s.run clock (.registerFamily f)).1.log = s.log
      ∧ (s.run clock (.registerFamily f)).1.plans = s.plans := by
  cases hr : s.families.register f with
  | error e =>
    rw [run_registerFamily_of_error hr]
    exact ⟨rfl, rfl⟩
  | ok r =>
    rw [run_registerFamily_of_ok hr]
    exact ⟨rfl, rfl⟩

theorem createPlan_frame (s : Session) (id : String) (options : PlanOptions) :
    (s.createPlan id options).session.families = s.families
      ∧ (s.createPlan id options).session.log = s.log
      ∧ ∀ other, other ≠ id →
          (s.createPlan id options).session.plans.get? other = s.plans.get? other := by
  simp only [createPlan]
  split
  · exact ⟨rfl, rfl, fun _ hne => Record.get?_erase_of_ne _ hne⟩
  · refine ⟨rfl, rfl, fun _ hne => ?_⟩
    rw [Record.get?_insert_of_ne _ _ hne, Record.get?_erase_of_ne _ hne]

theorem callPlan_frame (s : Session) (elapsed id : String) (call : Plan.Call) :
    (s.callPlan elapsed id call).session.families = s.families
      ∧ (s.callPlan elapsed id call).session.log = s.log
      ∧ ∀ other, other ≠ id →
          (s.callPlan elapsed id call).session.plans.get? other = s.plans.get? other := by
  unfold callPlan
  split
  · exact ⟨rfl, rfl, fun _ _ => rfl⟩
  · exact ⟨rfl, rfl, fun _ hne => Record.get?_insert_of_ne _ _ hne⟩

theorem log_run (s : Session) (clock : Clock) (c : Command) :
    (s.run clock c).1.log = s.log.after c := by
  cases c with
  | registerFamily f => exact (s.registerFamily_frame clock f).1
  | createPlan id options => exact (s.createPlan_frame id options).2.1
  | plan id call => exact (s.callPlan_frame clock.elapsed id call).2.1
  | _ => rfl

theorem families_run_of_ne (s : Session) (clock : Clock) {c : Command}
    (hc : ∀ f, c ≠ .registerFamily f) : (s.run clock c).1.families = s.families := by
  cases c with
  | registerFamily f => exact absurd rfl (hc f)
  | createPlan id options => exact (s.createPlan_frame id options).1
  | plan id call => exact (s.callPlan_frame clock.elapsed id call).1
  | _ => rfl

theorem Accepted.run (h : Accepted s.families) (clock : Clock) (c : Command) :
    Accepted (s.run clock c).1.families := by
  by_cases hc : ∃ f, c = .registerFamily f
  · obtain ⟨f, rfl⟩ := hc
    cases hr : s.families.register f with
    | error e => rwa [run_registerFamily_of_error hr]
    | ok r =>
      rw [run_registerFamily_of_ok hr]
      exact h.register hr
  · rwa [families_run_of_ne s clock fun f hf => hc ⟨f, hf⟩]

theorem run_plan (hp : s.plans.get? id = some p) (clock : Clock) (call : Plan.Call) :
    s.run clock (.plan id call)
      = ({ s with plans := s.plans.insert id (p.call clock.elapsed call).plan },
        (p.call clock.elapsed call).result.map .plan,
        s.log.lines clock.now (p.call clock.elapsed call).events) := by
  simp only [Session.run, step, callPlan, hp]

/-- Only its creation and the calls to it change what stands under a name. -/
theorem get?_run_of_ne (s : Session) (clock : Clock) {c : Command}
    (hcreate : ∀ options, c ≠ .createPlan id options) (hcall : ∀ call, c ≠ .plan id call) :
    (s.run clock c).1.plans.get? id = s.plans.get? id := by
  cases c with
  | registerFamily f => exact congrArg (Record.get? · id) (s.registerFamily_frame clock f).2
  | createPlan other options =>
    exact (s.createPlan_frame other options).2.2 id fun h => hcreate options (h ▸ rfl)
  | plan other call =>
    exact (s.callPlan_frame clock.elapsed other call).2.2 id fun h => hcall call (h ▸ rfl)
  | _ => rfl

/-- What one command leaves under a name: the plan that was there, unless the command is a call to
it. -/
theorem get?_run (hp : s.plans.get? id = some p) (clock : Clock) {c : Command}
    (hc : ∀ options, c ≠ .createPlan id options) :
    (s.run clock c).1.plans.get? id = some p
      ∨ ∃ call, c = .plan id call
        ∧ (s.run clock c).1.plans.get? id = some (p.call clock.elapsed call).plan := by
  by_cases hcall : ∃ call, c = .plan id call
  · obtain ⟨call, rfl⟩ := hcall
    rw [run_plan hp]
    exact .inr ⟨call, rfl, Record.get?_insert_self _ _ _⟩
  · rw [not_exists] at hcall
    exact .inl ((get?_run_of_ne s clock hc hcall).trans hp)

/-- The session holds a plan of this name that satisfies its invariant. -/
def Holds (f : Family) (cap : Option Float) (id : String) (s : Session) : Prop :=
  ∃ p, s.plans.get? id = some p ∧ p.Invariant f cap

theorem holds_createPlan {options : PlanOptions} (hf : s.families.find options.family = .ok f)
    (clock : Clock) :
    Holds f options.cap id (s.run clock (.createPlan id options)).1 := by
  refine ⟨_, ?_, Plan.invariant_create f options.cap⟩
  simp only [Session.run, step, createPlan, hf]
  exact Record.get?_insert_self _ _ _

theorem Holds.run (h : Holds f cap id s) (clock : Clock) {c : Command}
    (hc : ∀ options, c ≠ .createPlan id options) : Holds f cap id (s.run clock c).1 := by
  obtain ⟨p, hp, hinv⟩ := h
  rcases get?_run hp clock hc with hq | ⟨call, -, hq⟩
  · exact ⟨p, hq, hinv⟩
  · exact ⟨_, hq, hinv.step (Plan.step_call p clock.elapsed call)⟩

/-- A call that fails leaves the whole session as it was. -/
theorem Holds.run_of_fails (h : Holds f cap id s) (hf : f.Lettered) {clock : Clock}
    {call : Plan.Call} {error : Error}
    (he : (s.run clock (.plan id call)).2.1 = .error error) :
    (s.run clock (.plan id call)).1 = s := by
  obtain ⟨p, hp, hinv⟩ := h
  rw [run_plan hp] at he ⊢
  dsimp only at he ⊢
  cases hr : (p.call clock.elapsed call).result with
  | ok a => rw [hr] at he; cases he
  | error e => rw [hinv.plan_of_error hf hr, Record.insert_eq_self hp]

end Step

/-- A command in a session, with what it answered and wrote. -/
structure Entry where
  clock : Clock
  command : Command
  result : Except Error Answer
  lines : List Line

def Entry.Creates (id : String) (e : Entry) : Prop :=
  ∃ options, e.command = .createPlan id options

/-- A call to the plan of this name that failed. -/
def Entry.Fails (id : String) (e : Entry) : Prop :=
  (∃ call, e.command = .plan id call) ∧ ∃ error, e.result = .error error

/-- The entry of a command to a session as it stands. -/
def entry (s : Session) (clock : Clock) (c : Command) : Entry :=
  ⟨clock, c, (s.run clock c).2.1, (s.run clock c).2.2⟩

/-- The entries that a session leaves on its way to another one. -/
inductive Run : Session → List Entry → Session → Prop
  | nil (s : Session) : Run s [] s
  | cons {s t : Session} {entries : List Entry} (clock : Clock) (c : Command) :
      Run (s.run clock c).1 entries t → Run s (s.entry clock c :: entries) t

section Runs

variable {s t : Session} {id : String} {f : Family} {cap : Option Float} {entries : List Entry}

theorem Run.log_eq (h : Run s entries t) :
    t.log = (entries.map Entry.command).foldl Log.after s.log := by
  induction h with
  | nil => rfl
  | cons clock c _ ih =>
    rw [ih, log_run]
    rfl

theorem Run.accepted (h : Run s entries t) (hs : Accepted s.families) :
    Accepted t.families := by
  induction h with
  | nil => exact hs
  | cons clock c _ ih => exact ih (hs.run clock c)

theorem Run.holds (h : Run s entries t) (hs : Holds f cap id s)
    (hid : ∀ e ∈ entries, ¬ e.Creates id) : Holds f cap id t := by
  induction h with
  | nil => exact hs
  | cons clock c _ ih =>
    rw [List.forall_mem_cons] at hid
    exact ih (hs.run clock fun options hc => hid.1 ⟨options, hc⟩) hid.2

/-- Every plan of a session keeps what it was created with: its slots count up and stay below the
capacity of its family, its frequencies lie in the ranges of this family, and a solution that it has
is that of the plan as it stands. Whatever else the session does, registering families included,
makes no difference. -/
theorem Run.plan_invariant {options : PlanOptions} {clock : Clock}
    (hf : s.families.find options.family = .ok f)
    (h : Run (s.run clock (.createPlan id options)).1 entries t)
    (hid : ∀ e ∈ entries, ¬ e.Creates id) :
    ∃ p, t.plans.get? id = some p ∧ p.Invariant f options.cap
      ∧ (f.limits.maxOutputs.isNaN = false → ∀ (i : ℕ) (r : Request), p.requests[i]? = some r →
          r.slot = i.toFloat ∧ i.toFloat < f.limits.maxOutputs)
      ∧ (p.isFinalized = true → p.input.isSome = true) := by
  obtain ⟨p, hp, hinv⟩ := h.holds (holds_createPlan hf clock) hid
  refine ⟨p, hp, hinv, ?_, ?_⟩
  · intro hmax i r hr
    have hslot := hinv.slot i r hr
    exact ⟨hslot, hslot ▸ hinv.slot_lt hmax hr⟩
  · intro hfinal
    obtain ⟨s, hs⟩ := Option.isSome_iff_exists.1 hfinal
    rw [Plan.input_of_snapshot (hinv.solution s hs).1, Option.isSome_some]

/-- A session that knows the small family in place of the built-in one. -/
def small : Session :=
  (({} : Session).run default (.registerFamily Family.small)).1

theorem find_small : small.families.find ({} : PlanOptions).family = .ok Family.small := by
  have hr : ({} : Session).families.register Family.small = .ok _ := if_neg (by decide)
  have hfind := Registry.find_register_self hr
  rw [small, run_registerFamily_of_ok hr]
  exact hfind

/-- The family of the plan is replaced while it is open, and a call comes too early. -/
theorem plan_invariant_small :
    ∃ entries t p, entries.map Entry.command
        = [.plan "clk" (.registerOutput "core" 250e6 {}), .plan "clk" (.registerInput 250e6 none),
          .registerFamily Family.ecp5, .plan "clk" (.registerOutput "core" 250e6 {}),
          .plan "clk" .finalize]
      ∧ Run (small.run default (.createPlan "clk" {})).1 entries t
      ∧ t.plans.get? "clk" = some p ∧ p.isFinalized = true ∧ p.Invariant Family.small none := by
  have hrun : Run (small.run default (.createPlan "clk" {})).1 _ _ :=
    .cons default (.plan "clk" (.registerOutput "core" 250e6 {})) <|
    .cons default (.plan "clk" (.registerInput 250e6 none)) <|
    .cons default (.registerFamily Family.ecp5) <|
    .cons default (.plan "clk" (.registerOutput "core" 250e6 {})) <|
    .cons default (.plan "clk" .finalize) <| .nil _
  obtain ⟨p, hp, hinv, -⟩ := hrun.plan_invariant find_small (by simp [Entry.Creates, entry])
  have hfinal : some p.isFinalized = some true := by
    rw [← Option.map_some, ← hp]
    decide +kernel
  exact ⟨_, _, p, rfl, hrun, hp, Option.some.inj hfinal, hinv⟩

/-- Failed calls can be left out of a run: what is left gives the same answers and log lines, and
leads to the same session. -/
theorem Run.thinned (h : Run s entries t) (hs : Holds f cap id s) (hf : f.Lettered)
    (hid : ∀ e ∈ entries, ¬ e.Creates id) {kept : List Entry}
    (hkept : Thinned (Entry.Fails id) kept entries) : Run s kept t := by
  induction h generalizing kept with
  | nil s =>
    cases hkept
    exact .nil s
  | cons clock c _ ih =>
    rw [List.forall_mem_cons] at hid
    have hnext := hs.run clock fun options hc => hid.1 ⟨options, hc⟩
    cases hkept with
    | keep _ hkept => exact .cons clock c (ih hnext hid.2 hkept)
    | drop hfails hkept =>
      obtain ⟨⟨call, hc⟩, error, he⟩ := hfails
      obtain rfl : c = .plan id call := hc
      have hsame := hs.run_of_fails hf he
      rw [hsame] at ih
      exact ih hs hid.2 hkept

/-- A plan on an accepted family whose capacity is a number: a call that fails leaves it as it was,
failed calls can be left out of any run of the session that holds it, and after a search that found
nothing it is open and goes on as if there had been none. -/
theorem Run.failed_calls_leave_no_trace {earlier : List Entry} {options : PlanOptions}
    {clock : Clock} (hs : Run {} earlier s) (hf : s.families.find options.family = .ok f)
    (hmax : f.limits.maxOutputs.isNaN = false)
    (h : Run (s.run clock (.createPlan id options)).1 entries t)
    (hid : ∀ e ∈ entries, ¬ e.Creates id) :
    ∃ p, t.plans.get? id = some p
      ∧ (∀ elapsed call error, (p.call elapsed call).result = .error error →
          (p.call elapsed call).plan = p)
      ∧ (∀ kept, Thinned (Entry.Fails id) kept entries →
          Run (s.run clock (.createPlan id options)).1 kept t)
      ∧ ∀ clock limit st,
          (t.run clock (.plan id .finalize)).2.1 = .error (.noConfiguration limit st) →
          p.isFinalized = false
            ∧ ∀ rest u, Run (t.run clock (.plan id .finalize)).1 rest u ↔ Run t rest u := by
  have hlettered : f.Lettered := ⟨hs.accepted accepted_builtin _ _ hf, hmax⟩
  have hstart : Holds f options.cap id (s.run clock (.createPlan id options)).1 :=
    holds_createPlan hf clock
  have hheld := h.holds hstart hid
  have ⟨p, hp, hinv⟩ := hheld
  refine ⟨p, hp, ?_, ?_, ?_⟩
  · intro elapsed call error he
    exact hinv.plan_of_error hlettered he
  · intro kept hkept
    exact h.thinned hstart hlettered hid hkept
  · intro clock limit st he
    refine ⟨?_, fun rest u => by rw [hheld.run_of_fails hlettered he]⟩
    simp only [Session.run, step, callPlan, hp] at he
    cases hr : (p.finalize clock.elapsed).result with
    | ok prim => simp [Plan.call, Plan.Reply.map, hr, Except.map] at he
    | error e => exact hinv.not_isFinalized_of_error hlettered hr

theorem exists_error {α : Type} : ∀ {r : Except Error α}, r.isOk = false → ∃ e, r = .error e
  | .error e, _ => ⟨e, rfl⟩
  | .ok _, h => nomatch h

/-- A call that comes too early and a search in vain are left out. -/
theorem failed_calls_leave_no_trace_small :
    ∃ entries kept t p, entries.map Entry.command
        = [.plan "clk" (.registerOutput "core" 300e6 {}), .plan "clk" (.registerInput 250e6 none),
          .plan "clk" (.registerOutput "core" 300e6 {}), .plan "clk" .finalize,
          .plan "clk" .enableDynamicPhase]
      ∧ kept.map Entry.command
        = [.plan "clk" (.registerInput 250e6 none), .plan "clk" (.registerOutput "core" 300e6 {}),
          .plan "clk" .enableDynamicPhase]
      ∧ t.plans.get? "clk" = some p
      ∧ Run (small.run default (.createPlan "clk" {})).1 entries t
      ∧ Run (small.run default (.createPlan "clk" {})).1 kept t := by
  have hearlier : Run {} _ small := .cons default (.registerFamily Family.small) (.nil _)
  have hrun : Run (small.run default (.createPlan "clk" {})).1 _ _ :=
    .cons default (.plan "clk" (.registerOutput "core" 300e6 {})) <|
    .cons default (.plan "clk" (.registerInput 250e6 none)) <|
    .cons default (.plan "clk" (.registerOutput "core" 300e6 {})) <|
    .cons default (.plan "clk" .finalize) <|
    .cons default (.plan "clk" .enableDynamicPhase) <| .nil _
  obtain ⟨p, hp, -, hthinned, -⟩ := hearlier.failed_calls_leave_no_trace find_small
    (by decide +kernel) hrun (by simp [Entry.Creates, entry])
  have hkept := hthinned _ <|
    .drop ⟨⟨_, rfl⟩, exists_error (by decide +kernel)⟩ <| .keep _ <| .keep _ <|
    .drop ⟨⟨_, rfl⟩, exists_error (by decide +kernel)⟩ <| .keep _ .nil
  exact ⟨_, _, _, p, rfl, rfl, hp, hrun, hkept⟩

end Runs

end Session

end ClockSynth
