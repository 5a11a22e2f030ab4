import ClockSynth.Family.Registry
import ClockSynth.Proofs.Drive

/-!
# Every slot in use has a letter

A family that a registry accepts has at least as many letters as outputs, a plan stops taking
outputs at that number, and a phantom gets a slot only below it. So the slots of a solution all have
letters and its primitive can be written (`exists_primitive`), and a call that fails leaves the plan
as it was (`plan_of_error`): what `Plan.finalize` keeps before it writes the primitive, it never has
to take back.
-/

namespace ClockSynth

open Number

/-- A family that a registry accepts, with a capacity that is a number. -/
structure Family.Lettered (f : Family) : Prop where
  accepted : Registry.lacksLetters f = false
  isNaN : f.limits.maxOutputs.isNaN = false

theorem Family.Lettered.exists_letter {f : Family} (h : f.Lettered) {n : ℕ}
    (hn : ¬ f.limits.maxOutputs ≤ n.toFloat) : ∃ l, f.letter? n.toFloat = some l := by
  have hletters : f.limits.maxOutputs ≤ f.slotLetters.length.toFloat := by
    by_contra hc
    have hacc := h.accepted
    rw [Registry.lacksLetters, decide_eq_false_iff_not] at hacc
    exact hacc ((not_le_iff_lt h.isNaN (isNaN_toFloat _)).1 hc)
  have hlt : n.toFloat < f.slotLetters.length.toFloat :=
    (not_le_iff_lt (isNaN_toFloat _) (isNaN_toFloat _)).1 fun hc =>
      hn (double_le_trans hletters hc)
  obtain ⟨m, hm, hnat⟩ := exists_toNat?_of_toFloat_lt hlt
  exact ⟨f.slotLetters[m], by rw [letter?, hnat, Option.bind_some, List.getElem?_eq_getElem hm]⟩

/-- A phantom stands in a slot below the capacity. -/
theorem Problem.Solves.spareSlot_free {p : Problem} {c : Configuration} (h : p.Solves c)
    (hlt : p.requests.length < c.outputs.length) :
    ¬ p.family.limits.maxOutputs ≤ p.requests.length.toFloat := by
  obtain ⟨outputs, more, hc, hserved, hfeedback⟩ := h.outputs
  rw [hc, List.length_append, hserved.length_eq] at hlt
  cases hfeedback with
  | request => simp at hlt
  | phantom _ hmax _ _ _ _ => exact hmax

namespace Snapshot

variable {s : Snapshot} {c : Configuration}

/-- Nothing but a missing letter keeps a primitive from being written. -/
theorem exists_primitive_of_letters (hpath : ∃ l, s.family.letter? c.feedbackSlot = some l)
    (h : ∀ o ∈ c.outputs, ∃ l, s.family.letter? o.slot = some l) :
    ∃ prim, s.primitive c = .ok prim := by
  obtain ⟨l, hl⟩ := hpath
  have hfeedback := feedbackPath_eq_ok_iff.2 ⟨l, hl, rfl⟩
  obtain ⟨ports, hports⟩ := exists_mapM_eq_ok (f := s.port) fun o ho =>
    (h o ho).elim fun l hl => ⟨_, port_eq_ok_iff.2 ⟨l, hl, rfl⟩⟩
  exact ⟨_, by rw [primitive, hfeedback, hports]; rfl⟩

end Snapshot

namespace Plan

variable {f : Family} {cap : Option Float} {p : Plan}

/-- The primitive of a solution of the plan can be written. -/
theorem Invariant.exists_primitive {s : Snapshot} {c : Configuration} {t : Tally}
    (h : Invariant f cap p) (hf : f.Lettered) (hs : p.snapshot = .ok s)
    (ht : s.problem.solve cap = .solved c t) : ∃ prim, s.primitive c = .ok prim := by
  obtain ⟨hfamily, hrequests, -⟩ := snapshot_ok hs
  rw [h.family_eq] at hfamily
  obtain ⟨d, hd, he⟩ := Problem.exists_mem_candidates_of_solved ht
  have hsolves : s.problem.Solves c := Problem.solves_of_evaluate hd he
  have hletter : ∀ o ∈ c.outputs, ∃ l, s.family.letter? o.slot = some l := by
    intro o ho
    obtain ⟨i, hi⟩ := List.mem_iff_getElem?.1 ho
    rw [(h.ordered hs).counted hsolves i o hi, hfamily]
    refine hf.exists_letter ?_
    rcases hsolves.output_cases hi with ⟨r, hr, -⟩ | ⟨rfl, -⟩
    · have hi := (List.getElem?_eq_some_iff.1 hr).1
      exact h.capacity i (hrequests ▸ hi)
    · rw [← hfamily]
      exact hsolves.spareSlot_free (List.getElem?_eq_some_iff.1 hi).1
  obtain ⟨o, ho, hslot⟩ := hsolves.exists_feedback
  exact Snapshot.exists_primitive_of_letters (hslot ▸ hletter o ho) hletter

/-- A call that fails leaves the plan as it was. -/
theorem Invariant.plan_of_error (h : Invariant f cap p) (hf : f.Lettered) {elapsed : String}
    {c : Call} {e : Error} (he : (p.call elapsed c).result = .error e) :
    (p.call elapsed c).plan = p := by
  cases c with
  | registerInput frequency signal =>
    simp only [call, registerInput] at he ⊢
    cases ha : p.admitInput frequency signal with
    | error e => rfl
    | ok input => rw [ha] at he; cases he
  | registerOutput domain frequency options =>
    simp only [call, registerOutput] at he ⊢
    cases ha : p.admitOutput domain frequency options with
    | error e => rfl
    | ok r => rw [ha] at he; cases he
  | enableDynamicPhase =>
    simp only [call, enableDynamicPhase] at he ⊢
    cases ha : p.requireOpen .enableDynamicPhaseAdjust with
    | error e => rfl
    | ok u => rw [ha] at he; cases he
  | snapshot => rfl
  | finalize =>
    simp only [call, finalize] at he ⊢
    cases hs : p.solution with
    | some s => rfl
    | none =>
      cases hn : p.snapshot with
      | error e => rfl
      | ok s =>
        simp only [hs, hn, solve] at he ⊢
        cases ho : s.problem.solve p.cap with
        | failed cap t => rfl
        | solved c t =>
          -- The solution is kept by now, but the primitive is there as well.
          obtain ⟨prim, hprim⟩ := h.exists_primitive hf hn (h.cap_eq ▸ ho)
          simp only [ho, Solution.primitive, hprim] at he
          cases he

/-- A plan that is finalized can be finalized again. -/
theorem Invariant.not_isFinalized_of_error (h : Invariant f cap p) (hf : f.Lettered)
    {elapsed : String} {e : Error} (he : (p.finalize elapsed).result = .error e) :
    p.isFinalized = false := by
  unfold isFinalized
  cases hs : p.solution with
  | none => rfl
  | some s =>
    obtain ⟨hsnapshot, t, ht⟩ := h.solution s hs
    obtain ⟨prim, hprim⟩ := h.exists_primitive hf hsnapshot ht
    rw [finalize, hs] at he
    cases hprim.symm.trans he

end Plan

end ClockSynth
