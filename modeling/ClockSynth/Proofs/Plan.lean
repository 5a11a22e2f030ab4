import ClockSynth.Plan
import ClockSynth.Proofs.Number.Natural

/-!
# Runs of a plan

A `Run` is any sequence of calls to a plan, with their replies, failed ones included. One call
changes the plan in one of four ways or not at all (`step_call`), each keeps `Invariant`, and so it
holds after every run (`Run.invariant`): slots count up, requests stay within the limits, and a
solution is the solution of the plan as it stands.
-/

namespace ClockSynth

/-- The request for a slot, with what the options leave to their defaults. -/
def OutputOptions.request (options : OutputOptions) (domain : String) (frequency : Float)
    (slot : ℕ) : Request where
  slot := slot.toFloat
  domain := domain
  frequency := frequency
  phase := options.phase.getD 0
  margin := options.margin.getD 1e-2
  withReset := options.withReset.getD true
  usesDynamicPhase := options.usesDynamicPhase.getD true

namespace Plan

open Number

/-- A run from a plan: the calls with their replies, and the plan after them. -/
inductive Run (start : Plan) : List (Call × Reply Answer) → Plan → Prop
  | nil : Run start [] start
  | snoc {calls : List (Call × Reply Answer)} {p : Plan} (elapsed : String) (c : Call) :
      Run start calls p →
      Run start (calls ++ [(c, p.call elapsed c)]) (p.call elapsed c).plan

/-- The dynamic phase was enabled with success. -/
def Enables (x : Call × Reply Answer) : Prop :=
  x.1 = .enableDynamicPhase ∧ x.2.result = .ok .done

/-- The request that a call registers in a slot, if it has success. -/
def registered? (slot : ℕ) : Call × Reply Answer → Option Request
  | (.registerOutput domain frequency options, reply) =>
    if reply.result.isOk then some (options.request domain frequency slot) else none
  | _ => none

/-- The requests that the calls of a run register, in their order. -/
def registered (calls : List (Call × Reply Answer)) : List Request :=
  calls.foldl (fun requests x => requests ++ (registered? requests.length x).toList) []

/-- The call neither enables the dynamic phase nor registers a request. -/
structure Neutral (x : Call × Reply Answer) : Prop where
  enables : ¬ Enables x
  registered : ∀ slot, registered? slot x = none

/-- What one call can do to a plan. -/
inductive Step (p : Plan) : Call × Reply Answer → Prop
  | unchanged {x : Call × Reply Answer} : x.2.plan = p → Neutral x → Step p x
  | input {x : Call × Reply Answer} {input : Input} : p.solution = none → p.input = none →
      p.family.limits.inputFrequency.contains input.frequency = true → Neutral x →
      x.2.plan = { p with input := some input } → Step p x
  | output {x : Call × Reply Answer} {r : Request} : p.solution = none → p.input.isSome = true →
      p.family.limits.outputFrequency.contains r.frequency = true →
      ¬ p.family.limits.maxOutputs ≤ p.nextSlot → r.slot = p.nextSlot →
      registered? p.requests.length x = some r → ¬ Enables x →
      x.2.plan = { p with requests := p.requests ++ [r] } → Step p x
  | enable {x : Call × Reply Answer} : p.solution = none → Enables x →
      x.2.plan = { p with dynamicPhase := true } → Step p x
  | solve {x : Call × Reply Answer} {s : Snapshot} {c : Configuration} {t : Tally} :
      p.solution = none → p.snapshot = .ok s → s.problem.solve p.cap = .solved c t →
      Neutral x → x.2.plan = { p with solution := some ⟨s, c⟩ } → Step p x

variable {p : Plan}

theorem admitInput_ok {frequency : Float} {signal : Option String} {input : Input}
    (h : p.admitInput frequency signal = .ok input) :
    p.solution = none ∧ p.input = none
      ∧ p.family.limits.inputFrequency.contains input.frequency = true := by
  unfold admitInput requireOpen isFinalized at h
  cases hs : p.solution <;> cases hi : p.input <;>
    cases hc : p.family.limits.inputFrequency.contains frequency <;>
    simp only [hs, hi, hc, Option.isSome_none, Option.isSome_some] at h <;> cases h
  exact ⟨rfl, rfl, hc⟩

theorem admitOutput_ok {domain : String} {frequency : Float} {options : OutputOptions}
    {r : Request} (h : p.admitOutput domain frequency options = .ok r) :
    p.solution = none ∧ p.input.isSome = true
      ∧ p.family.limits.outputFrequency.contains r.frequency = true
      ∧ ¬ p.family.limits.maxOutputs ≤ p.nextSlot
      ∧ r = options.request domain frequency p.requests.length := by
  unfold admitOutput requireOpen isFinalized at h
  cases hs : p.solution <;> cases hi : p.input <;>
    cases hc : p.family.limits.outputFrequency.contains frequency <;>
    by_cases hm : p.family.limits.maxOutputs ≤ p.nextSlot <;>
    simp only [hs, hi, hc, hm, Option.isSome_none, Option.isSome_some] at h <;> cases h
  exact ⟨rfl, rfl, hc, hm, rfl⟩

theorem Neutral.of_ne {c : Call} {r : Reply Answer} (he : c ≠ .enableDynamicPhase)
    (ho : ∀ domain frequency options, c ≠ .registerOutput domain frequency options) :
    Neutral (c, r) := by
  refine ⟨fun h => he h.1, ?_⟩
  intro slot
  cases c with
  | registerOutput domain frequency options => exact absurd rfl (ho domain frequency options)
  | _ => rfl

theorem Neutral.of_error {c : Call} {r : Reply Answer} {e : Error} (h : r.result = .error e) :
    Neutral (c, r) := by
  refine ⟨?_, ?_⟩
  · rintro ⟨-, hr⟩
    rw [h] at hr
    cases hr
  · intro slot
    cases c with
    | registerOutput domain frequency options => rw [registered?, h]; rfl
    | _ => rfl

theorem Step.of_refused {elapsed : String} {c : Call} {e : Error}
    (h : p.call elapsed c = ⟨p, .error e, []⟩) : Step p (c, p.call elapsed c) := by
  rw [h]
  exact .unchanged rfl (.of_error rfl)

theorem step_call (p : Plan) (elapsed : String) (c : Call) : Step p (c, p.call elapsed c) := by
  cases c with
  | registerInput frequency signal =>
    cases ha : p.admitInput frequency signal with
    | error e => exact .of_refused (by rw [call, registerInput, ha]; rfl)
    | ok input =>
      obtain ⟨hs, hi, hc⟩ := admitInput_ok ha
      exact .input hs hi hc (.of_ne nofun nofun) (by rw [call, registerInput, ha]; rfl)
  | registerOutput domain frequency options =>
    cases ha : p.admitOutput domain frequency options with
    | error e => exact .of_refused (by rw [call, registerOutput, ha]; rfl)
    | ok r =>
      obtain ⟨hs, hi, hc, hm, rfl⟩ := admitOutput_ok ha
      have hr : registered? p.requests.length
          (.registerOutput domain frequency options,
            p.call elapsed (.registerOutput domain frequency options))
          = some (options.request domain frequency p.requests.length) := by
        rw [call, registerOutput, ha]; rfl
      exact .output hs hi hc hm rfl hr (by simp [Enables]) (by rw [call, registerOutput, ha]; rfl)
  | enableDynamicPhase =>
    cases ha : p.requireOpen .enableDynamicPhaseAdjust with
    | error e => exact .of_refused (by rw [call, enableDynamicPhase, ha]; rfl)
    | ok u =>
      have hs : p.solution = none := by
        cases hs : p.solution with
        | none => rfl
        | some s => simp [requireOpen, isFinalized, hs] at ha
      exact .enable hs ⟨rfl, by rw [call, enableDynamicPhase, ha]; rfl⟩
        (by rw [call, enableDynamicPhase, ha]; rfl)
  | snapshot => exact .unchanged rfl (.of_ne nofun nofun)
  | finalize =>
    have hne : Neutral (Call.finalize, p.call elapsed .finalize) := .of_ne nofun nofun
    cases hs : p.solution with
    | some s => exact .unchanged (by simp [call, finalize, hs, Reply.map]) hne
    | none =>
      cases hn : p.snapshot with
      | error e => exact .unchanged (by simp [call, finalize, hs, hn, Reply.map]) hne
      | ok s =>
        cases ho : s.problem.solve p.cap with
        | failed cap t =>
          exact .unchanged (by simp [call, finalize, hs, hn, solve, ho, Reply.map]) hne
        | solved c t =>
          exact .solve hs hn ho hne (by simp [call, finalize, hs, hn, solve, ho, Reply.map])

/-- What every plan on a family and with a cap satisfies after any run. -/
structure Invariant (f : Family) (cap : Option Float) (p : Plan) : Prop where
  family_eq : p.family = f
  cap_eq : p.cap = cap
  input : ∀ i, p.input = some i → f.limits.inputFrequency.contains i.frequency = true
  inputFirst : p.requests ≠ [] → p.input.isSome = true
  frequency : ∀ r ∈ p.requests, f.limits.outputFrequency.contains r.frequency = true
  slot : ∀ (i : ℕ) (r : Request), p.requests[i]? = some r → r.slot = i.toFloat
  capacity : ∀ i : ℕ, i < p.requests.length → ¬ f.limits.maxOutputs ≤ i.toFloat
  solution : ∀ s, p.solution = some s → p.snapshot = .ok s.snapshot
    ∧ ∃ t, s.snapshot.problem.solve cap = .solved s.configuration t

variable {f : Family} {cap : Option Float}

theorem invariant_create (f : Family) (cap : Option Float) :
    Invariant f cap { family := f, cap := cap } := by
  refine ⟨rfl, rfl, ?_, ?_, ?_, ?_, ?_, ?_⟩ <;> simp

namespace Invariant

theorem withInput (h : Invariant f cap p) (hs : p.solution = none) {i : Input}
    (hc : p.family.limits.inputFrequency.contains i.frequency = true) :
    Invariant f cap { p with input := some i } := by
  rw [h.family_eq] at hc
  refine { h with input := ?_, inputFirst := fun _ => rfl, solution := by simp [hs] }
  rintro j hj
  cases hj
  exact hc

/-- A request for the next slot. -/
theorem withRequest (h : Invariant f cap p) (hs : p.solution = none) (hi : p.input.isSome = true)
    {r : Request} (hc : p.family.limits.outputFrequency.contains r.frequency = true)
    (hm : ¬ p.family.limits.maxOutputs ≤ p.nextSlot) (hr : r.slot = p.nextSlot) :
    Invariant f cap { p with requests := p.requests ++ [r] } := by
  rw [h.family_eq] at hc hm
  refine { h with inputFirst := fun _ => hi, frequency := ?_, slot := ?_, capacity := ?_,
                  solution := by simp [hs] }
  · intro q hq
    rcases List.mem_append.1 hq with hq | hq
    · exact h.frequency q hq
    · rw [List.mem_singleton.1 hq]
      exact hc
  · intro i q hq
    rcases lt_trichotomy i p.requests.length with hlt | rfl | hgt
    · rw [List.getElem?_append_left hlt] at hq
      exact h.slot i q hq
    · rw [List.getElem?_concat_length] at hq
      cases hq
      exact hr
    · rw [List.getElem?_eq_none (by simpa using hgt)] at hq
      cases hq
  · intro i hlt
    rw [List.length_append, List.length_singleton] at hlt
    rcases Nat.lt_succ_iff_lt_or_eq.1 hlt with hlt | rfl
    · exact h.capacity i hlt
    · exact hm

theorem withDynamicPhase (h : Invariant f cap p) (hs : p.solution = none) :
    Invariant f cap { p with dynamicPhase := true } :=
  { h with solution := by simp [hs] }

theorem withSolution (h : Invariant f cap p) {s : Snapshot} {c : Configuration} {t : Tally}
    (hn : p.snapshot = .ok s) (ho : s.problem.solve p.cap = .solved c t) :
    Invariant f cap { p with solution := some ⟨s, c⟩ } := by
  rw [h.cap_eq] at ho
  refine { h with solution := ?_ }
  rintro s' hs'
  cases hs'
  exact ⟨hn, t, ho⟩

theorem step {x : Call × Reply Answer} (h : Invariant f cap p) (hx : Step p x) :
    Invariant f cap x.2.plan := by
  cases hx with
  | unchanged hp _ => rwa [hp]
  | input hs _ hc _ hp => exact hp ▸ h.withInput hs hc
  | output hs hi hc hm hr _ _ hp => exact hp ▸ h.withRequest hs hi hc hm hr
  | enable hs _ hp => exact hp ▸ h.withDynamicPhase hs
  | solve _ hn ho _ hp => exact hp ▸ h.withSolution hn ho

end Invariant

variable {calls : List (Call × Reply Answer)}

theorem Run.invariant (h : Run { family := f, cap := cap } calls p) : Invariant f cap p := by
  induction h with
  | nil => exact invariant_create f cap
  | snoc elapsed c _ ih => exact ih.step (step_call _ elapsed c)

/-- A capacity that is a number stays above all slots. -/
theorem Invariant.slot_lt (h : Invariant f cap p) (hmax : f.limits.maxOutputs.isNaN = false)
    {i : ℕ} {r : Request} (hr : p.requests[i]? = some r) : r.slot < f.limits.maxOutputs := by
  rw [h.slot i r hr, ← not_le_iff_lt hmax (isNaN_toFloat i)]
  exact h.capacity i (List.getElem?_eq_some_iff.1 hr).1

theorem Step.dynamicPhase_iff {x : Call × Reply Answer} (h : Step p x) :
    x.2.plan.dynamicPhase = true ↔ p.dynamicPhase = true ∨ Enables x := by
  cases h with
  | unchanged hp hn => rw [hp, or_iff_left hn.enables]
  | input _ _ _ hn hp => rw [hp, or_iff_left hn.enables]
  | output _ _ _ _ _ _ hne hp => rw [hp, or_iff_left hne]
  | enable _ he hp => simp [hp, he]
  | solve _ _ _ hn hp => rw [hp, or_iff_left hn.enables]

theorem Step.requests_eq {x : Call × Reply Answer} (h : Step p x) :
    x.2.plan.requests = p.requests ++ (registered? p.requests.length x).toList := by
  cases h with
  | unchanged hp hn => rw [hp, hn.registered, Option.toList_none, List.append_nil]
  | input _ _ _ hn hp => rw [hp, hn.registered, Option.toList_none, List.append_nil]
  | output _ _ _ _ _ hr _ hp => rw [hp, hr, Option.toList_some]
  | enable _ he hp =>
    have hr : registered? p.requests.length x = none := by
      obtain ⟨c, r⟩ := x
      obtain rfl : c = .enableDynamicPhase := he.1
      rfl
    rw [hp, hr, Option.toList_none, List.append_nil]
  | solve _ _ _ hn hp => rw [hp, hn.registered, Option.toList_none, List.append_nil]

theorem Run.dynamicPhase_iff (h : Run { family := f, cap := cap } calls p) :
    p.dynamicPhase = true ↔ ∃ x ∈ calls, Enables x := by
  induction h with
  | nil => simp
  | snoc elapsed c _ ih =>
    rw [(step_call _ elapsed c).dynamicPhase_iff, ih]
    simp only [List.mem_append, List.mem_singleton, or_and_right, exists_or, exists_eq_left]

/-- A plan has the requests that its run registered. -/
theorem Run.requests_eq (h : Run { family := f, cap := cap } calls p) :
    p.requests = registered calls := by
  induction h with
  | nil => rfl
  | snoc elapsed c _ ih =>
    rw [(step_call _ elapsed c).requests_eq, ih]
    simp only [registered, List.foldl_append, List.foldl_cons, List.foldl_nil]

end Plan

end ClockSynth
