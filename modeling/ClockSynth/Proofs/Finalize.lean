import ClockSynth.Proofs.Session

/-!
# How finalizing ends, and what stays after it

Every plan of a session that began empty stands on a family that was accepted and keeps the invariant
of its runs (`Run.sound`). So finalizing it ends in one of three ways (`Plan.Finalizes`), and never
for want of a letter (`Run.finalizes`). A primitive closes the plan: no call changes it any more, and
what it answers from then on is settled (`Run.closed_of_finalize`).
-/

namespace ClockSynth

namespace Plan

variable {f : Family} {cap : Option Float} {p : Plan} {elapsed : String} {s : Solution}
  {prim : Primitive}

section Solved

theorem Step.plan_eq_of_solution {x : Call × Reply Answer} (h : Step p x)
    (hs : p.solution = some s) : x.2.plan = p := by
  cases h with
  | unchanged hp _ => exact hp
  | input hn => rw [hs] at hn; cases hn
  | output hn => rw [hs] at hn; cases hn
  | enable hn => rw [hs] at hn; cases hn
  | solve hn => rw [hs] at hn; cases hn

/-- What is finalized once has a solution from then on, which the primitive is built from. -/
theorem exists_solution_of_finalize (h : (p.finalize elapsed).result = .ok prim) :
    ∃ s, (p.finalize elapsed).plan.solution = some s ∧ s.primitive = .ok prim := by
  unfold finalize at h ⊢
  cases hs : p.solution with
  | some s =>
    rw [hs] at h
    exact ⟨s, hs, h⟩
  | none =>
    cases hn : p.snapshot with
    | error e => simp [hs, hn] at h
    | ok s =>
      simp only [hs, hn, solve] at h ⊢
      cases ho : s.problem.solve p.cap with
      | failed limit t => simp [ho] at h
      | solved c t =>
        simp only [ho] at h
        exact ⟨_, rfl, h⟩

theorem requireOpen_of_solution (hs : p.solution = some s) (step : PlanStep) :
    p.requireOpen step = .error (.plan (.finalized step)) := by
  rw [requireOpen, isFinalized, hs]
  rfl

end Solved

end Plan

namespace Session

variable {s t : Session} {id : String} {p : Plan} {entries : List Entry} {clock : Clock}
  {prim : Primitive}

theorem run_finalize (hp : s.plans.get? id = some p) (clock : Clock) :
    (s.run clock (.plan id .finalize)).2.1
      = (p.finalize clock.elapsed).result.map fun prim => .plan (.primitive prim) := by
  rw [run_plan hp, Plan.call, Plan.Reply.map]
  cases (p.finalize clock.elapsed).result <;> rfl

theorem exists_plan_of_finalize
    (h : (s.run clock (.plan id .finalize)).2.1 = .ok (.plan (.primitive prim))) :
    ∃ p, s.plans.get? id = some p ∧ (p.finalize clock.elapsed).result = .ok prim := by
  cases hp : s.plans.get? id with
  | none => simp [Session.run, step, callPlan, hp] at h
  | some p =>
    rw [run_finalize hp] at h
    cases hr : (p.finalize clock.elapsed).result with
    | error e => rw [hr] at h; cases h
    | ok prim' =>
      rw [hr] at h
      cases h
      exact ⟨p, rfl, hr⟩

/-- The session that commands lead to, one after the other. -/
def after (s : Session) (clock : Clock) : List Command → Session
  | [] => s
  | c :: cs => (s.run clock c).1.after clock cs

theorem exists_run_after (s : Session) (clock : Clock) :
    ∀ cs : List Command, ∃ entries, entries.map Entry.command = cs ∧ Run s entries (s.after clock cs)
  | [] => ⟨[], rfl, .nil s⟩
  | c :: cs => by
    obtain ⟨entries, hentries, hrun⟩ := exists_run_after (s.run clock c).1 clock cs
    exact ⟨s.entry clock c :: entries, by rw [List.map_cons, hentries]; rfl, .cons clock c hrun⟩

section Sound

/-- What a session keeps: its registry has only accepted families, and each of its plans satisfies
the invariant of one of them. -/
structure Sound (s : Session) : Prop where
  families : Accepted s.families
  plans : ∀ id p, s.plans.get? id = some p →
    Registry.lacksLetters p.family = false ∧ p.Invariant p.family p.cap

theorem sound_empty : Sound {} where
  families := accepted_builtin
  plans _ _ h := by cases h

/-- Where a plan comes from that a command leaves under a name: it was there, or it is what a call to
it leaves, or it is created on a family of the registry. -/
theorem get?_run_cases {q : Plan} (clock : Clock) (c : Command)
    (hq : (s.run clock c).1.plans.get? id = some q) :
    s.plans.get? id = some q
      ∨ (∃ p call, s.plans.get? id = some p ∧ q = (p.call clock.elapsed call).plan)
      ∨ ∃ name f cap, s.families.find name = .ok f ∧ q = { family := f, cap := cap } := by
  by_cases hcreate : ∃ options, c = .createPlan id options
  · obtain ⟨options, rfl⟩ := hcreate
    simp only [Session.run, step, createPlan] at hq
    split at hq
    · rw [Record.get?_erase_self] at hq
      cases hq
    · rename_i f hf
      rw [Record.get?_insert_self] at hq
      cases hq
      exact .inr (.inr ⟨_, f, options.cap, hf, rfl⟩)
  · rw [not_exists] at hcreate
    by_cases hcall : ∃ call, c = .plan id call
    · obtain ⟨call, rfl⟩ := hcall
      rcases hp : s.plans.get? id with _ | p
      · simp [Session.run, step, callPlan, hp] at hq
      · rw [run_plan hp, Record.get?_insert_self] at hq
        cases hq
        exact .inr (.inl ⟨p, call, rfl, rfl⟩)
    · rw [not_exists] at hcall
      exact .inl ((get?_run_of_ne s clock hcreate hcall).symm.trans hq)

theorem Sound.run (h : Sound s) (clock : Clock) (c : Command) : Sound (s.run clock c).1 where
  families := h.families.run clock c
  plans id q hq := by
    rcases get?_run_cases clock c hq with hq | ⟨p, call, hp, rfl⟩ | ⟨name, f, cap, hf, rfl⟩
    · exact h.plans id q hq
    · obtain ⟨hletters, hinv⟩ := h.plans id p hp
      have hnext := hinv.step (Plan.step_call p clock.elapsed call)
      rw [hnext.family_eq, hnext.cap_eq]
      exact ⟨hletters, hnext⟩
    · exact ⟨h.families name f hf, Plan.invariant_create f cap⟩

theorem Run.sound (h : Run s entries t) (hs : Sound s) : Sound t := by
  induction h with
  | nil => exact hs
  | cons clock c _ ih => exact ih (hs.run clock c)

end Sound

section Closed

/-- The plan of this name is closed, and these are its snapshot and its primitive. -/
structure Closed (id : String) (snap : Snapshot) (prim : Primitive) (s : Session) : Prop where
  registerInput : ∀ clock frequency signal,
    (s.run clock (.plan id (.registerInput frequency signal))).2.1
      = .error (.plan (.finalized .registerInput))
  registerOutput : ∀ clock domain frequency options,
    (s.run clock (.plan id (.registerOutput domain frequency options))).2.1
      = .error (.plan (.finalized .registerOutput))
  enableDynamicPhase : ∀ clock, (s.run clock (.plan id .enableDynamicPhase)).2.1
    = .error (.plan (.finalized .enableDynamicPhaseAdjust))
  snapshot : ∀ clock, (s.run clock (.plan id .snapshot)).2.1 = .ok (.plan (.snapshot snap))
  finalize : ∀ clock, (s.run clock (.plan id .finalize)).2 = (.ok (.plan (.primitive prim)), [])

theorem closed_of_solution {sol : Solution} (hp : s.plans.get? id = some p)
    (hs : p.solution = some sol) (hsnapshot : p.snapshot = .ok sol.snapshot)
    (hprim : sol.primitive = .ok prim) : s.Closed id sol.snapshot prim where
  registerInput clock frequency signal := by
    rw [run_plan hp, Plan.call, Plan.registerInput, Plan.admitInput,
      Plan.requireOpen_of_solution hs]
    rfl
  registerOutput clock domain frequency options := by
    rw [run_plan hp, Plan.call, Plan.registerOutput, Plan.admitOutput,
      Plan.requireOpen_of_solution hs]
    rfl
  enableDynamicPhase clock := by
    rw [run_plan hp, Plan.call, Plan.enableDynamicPhase, Plan.requireOpen_of_solution hs]
    rfl
  snapshot clock := by
    rw [run_plan hp, Plan.call, hsnapshot]
    rfl
  finalize clock := by
    rw [run_plan hp, Plan.call, Plan.finalize, hs]
    simp only [Plan.Reply.map, hprim]
    rfl

/-- Until its name is used for another plan, nothing that a session does changes a closed plan. -/
theorem Run.get?_of_solution {sol : Solution} (h : Run s entries t)
    (hp : s.plans.get? id = some p) (hs : p.solution = some sol)
    (hid : ∀ e ∈ entries, ¬ e.Creates id) : t.plans.get? id = some p := by
  induction h with
  | nil => exact hp
  | cons clock c _ ih =>
    rw [List.forall_mem_cons] at hid
    refine ih ?_ hid.2
    rcases get?_run hp clock fun options hc => hid.1 ⟨options, hc⟩ with hq | ⟨call, -, hq⟩
    · exact hq
    · rwa [(Plan.step_call p clock.elapsed call).plan_eq_of_solution hs] at hq

/-- Once a plan was finalized with success, it refuses every call that would change it, and goes on
giving the snapshot and the primitive that it gave then, without a search and so without a log line.
Whatever the session does meanwhile makes no difference, as long as the name of the plan is not used
for another one; what only reads the session, or computes from its arguments alone, is no command and
leaves the session as it is. -/
theorem Run.closed_of_finalize {earlier : List Entry} (hs : Run {} earlier s)
    (hok : (s.run clock (.plan id .finalize)).2.1 = .ok (.plan (.primitive prim))) :
    ∃ snap, ∀ entries t, Run (s.run clock (.plan id .finalize)).1 entries t →
      (∀ e ∈ entries, ¬ e.Creates id) → t.Closed id snap prim := by
  obtain ⟨p, hp, hr⟩ := exists_plan_of_finalize hok
  obtain ⟨sol, hsol, hprim⟩ := Plan.exists_solution_of_finalize hr
  have hq : (s.run clock (.plan id .finalize)).1.plans.get? id
      = some (p.finalize clock.elapsed).plan := by
    rw [run_plan hp]
    exact Record.get?_insert_self _ _ _
  have hsound := (hs.sound sound_empty).run clock (.plan id .finalize)
  have hsnapshot := ((hsound.plans id _ hq).2.solution sol hsol).1
  refine ⟨sol.snapshot, fun entries t h hid => ?_⟩
  exact closed_of_solution (h.get?_of_solution hq hsol hid) hsol hsnapshot hprim

/-- The commands for a plan on the small family, up to where it can be finalized. -/
def readyCommands : List Command :=
  [.registerFamily Family.small, .createPlan "clk" {}, .plan "clk" (.registerInput 250e6 none),
    .plan "clk" (.registerOutput "core" 250e6 {}), .plan "clk" .enableDynamicPhase]

theorem get?_ready :
    (after {} default readyCommands).plans.get? "clk" = some Plan.smallPlan := by
  decide +kernel

theorem exists_finalize_ready :
    ∃ prim, ((after {} default readyCommands).run default (.plan "clk" .finalize)).2.1
      = .ok (.plan (.primitive prim)) := by
  have hok : (Plan.smallPlan.finalize default).result.isOk = true := by decide +kernel
  rw [run_finalize get?_ready]
  change ∃ prim, (Plan.smallPlan.finalize default).result.map _ = _
  cases hr : (Plan.smallPlan.finalize default).result with
  | error e => rw [hr] at hok; cases hok
  | ok prim => exact ⟨prim, rfl⟩

/-- The family of the plan is replaced, everything is logged, another plan is created, another
problem is solved, and the plan itself is called again. -/
def laterCommands : List Command :=
  [.registerFamily Family.ecp5, .configureLog { level := some (some .debug) }, .createPlan "aux" {},
    .solve Problem.small none, .plan "clk" (.registerOutput "usb" 48e6 {}), .plan "clk" .finalize]

theorem closed_of_finalize_ready :
    ∃ earlier s entries t snap prim, earlier.map Entry.command = readyCommands
      ∧ Run {} earlier s
      ∧ (s.run default (.plan "clk" .finalize)).2.1 = .ok (.plan (.primitive prim))
      ∧ entries.map Entry.command = laterCommands
      ∧ Run (s.run default (.plan "clk" .finalize)).1 entries t ∧ t.Closed "clk" snap prim := by
  obtain ⟨earlier, hearlier, hs⟩ := exists_run_after {} default readyCommands
  obtain ⟨prim, hok⟩ := exists_finalize_ready
  obtain ⟨entries, hentries, h⟩ := exists_run_after
    ((after {} default readyCommands).run default (.plan "clk" .finalize)).1 default laterCommands
  obtain ⟨snap, hclosed⟩ := hs.closed_of_finalize hok
  have hid : ∀ e ∈ entries, ¬ e.Creates "clk" := by
    rintro e he ⟨options, hc⟩
    have hmem : e.command ∈ laterCommands := hentries ▸ List.mem_map_of_mem he
    simp [laterCommands, hc] at hmem
  exact ⟨earlier, _, entries, _, snap, prim, hearlier, hs, hok, hentries, h,
    hclosed entries _ h hid⟩

end Closed

end Session

end ClockSynth
