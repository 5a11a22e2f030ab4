import ClockSynth.Proofs.Variation

/-!
# Asking for less

A request relaxes another one if it wants the same frequency within a tolerance that is no smaller.
It may take a smaller divider then, and so fail to feed back where the other one did. But as long as
a slot is free the feedback has a way all the same, and a problem whose requests relax those of a
solved one is solved no later (`solve_relaxed`).
-/

namespace ClockSynth

open Number

/-- The request has the frequency of another one and at least its tolerance. -/
structure Request.Relaxes (r r' : Request) : Prop where
  frequency : (r'.frequency == r.frequency) = true
  tolerance : r'.frequency * r'.margin ≤ r.frequency * r.margin

/-- What meets a request meets one that relaxes it. -/
theorem Request.Relaxes.meets {r r' : Request} (h : r.Relaxes r') {vco d : Float}
    (hd : r'.Meets vco d) : r.Meets vco d :=
  double_le_trans (abs_sub_le_of_beq h.frequency hd) h.tolerance

namespace Problem

variable {p q : Problem} {d : Dividers}

theorem SameLoop.reaches_of_relaxes (h : SameLoop p q) {r r' : Request} (hr : r.Relaxes r')
    (hreaches : p.Reaches d r') : q.Reaches d r := by
  obtain ⟨x, hx, hmeets⟩ := hreaches
  exact h.reaches_iff.2 ⟨x, hx, hr.meets hmeets⟩

/-- Where a slot is free, a candidate stays valid for requests that relax those it was valid for. -/
theorem SameLoop.valid_of_relaxes (h : SameLoop p q)
    (hfree : ¬ q.family.limits.maxOutputs ≤ q.spareSlot)
    (hrelax : ∀ r ∈ q.requests, ∃ r' ∈ p.requests, r.Relaxes r') (hd : p.Valid d) : q.Valid d := by
  obtain ⟨htunes, hreaches, -⟩ := valid_iff.1 hd
  refine valid_iff.2 ⟨h.tunes ▸ htunes, fun r hr => ?_, .inr hfree⟩
  obtain ⟨r', hr', hrr'⟩ := hrelax r hr
  exact h.reaches_of_relaxes hrr' (hreaches r' hr')

/-- Whoever asks for less is served no later: requests each of which relaxes one of a solved problem
are solved within as many combinations, whatever phases move, as long as a slot is free. A slot is
free unless the capacity is reached, and a capacity that is no number never is. -/
theorem solve_relaxed (p : Problem) {requests : List Request} (dynamicPhase : Bool)
    {cap : Option Float} {c : Configuration} {t : Tally} (hs : p.solve cap = .solved c t)
    (hfree : ¬ p.family.limits.maxOutputs ≤ requests.length.toFloat)
    (hrelax : ∀ r ∈ requests, ∃ r' ∈ p.requests, r.Relaxes r') :
    ∃ c' t',
      { p with requests := requests, dynamicPhase := dynamicPhase }.solve cap = .solved c' t'
        ∧ t'.evaluated ≤ t.evaluated := by
  have h : SameLoop p { p with requests := requests, dynamicPhase := dynamicPhase } := ⟨rfl, rfl⟩
  exact solve_mono h (fun d hd => h.valid_of_relaxes hfree hrelax hd) hs

/-- Both slots are taken, so that the feedback needs a request that carries it. -/
def crowded : Problem :=
  { small with
    family := { Family.small with limits := { Family.small.limits with maxOutputs := 2 } }
    requests := [
      ⟨0, "core", 250e6, 0, 0.01, true, false⟩,
      ⟨1, "usb", 250e6, 90, 0.01, true, false⟩] }

/-- One of the requests is dropped, and the other one gets a wide tolerance and a moving phase. -/
def spacious : Problem :=
  { crowded with
    requests := [⟨0, "core", 250e6, 180, 1, true, true⟩]
    dynamicPhase := true }

theorem solve_relaxed_spacious :
    ¬ crowded.family.limits.maxOutputs ≤ spacious.requests.length.toFloat
      ∧ (∀ r ∈ spacious.requests, ∃ r' ∈ crowded.requests, r.Relaxes r')
      ∧ ∃ c t c' t', crowded.solve none = .solved c t ∧ spacious.solve none = .solved c' t'
        ∧ t'.evaluated ≤ t.evaluated := by
  have hfree : ¬ crowded.family.limits.maxOutputs ≤ spacious.requests.length.toFloat := by
    decide +kernel
  have hrelax : ∀ r ∈ spacious.requests, ∃ r' ∈ crowded.requests, r.Relaxes r' :=
    List.forall_mem_singleton.2 ⟨_, List.mem_cons_self, by decide +kernel, by decide +kernel⟩
  have hsome : (crowded.solve none).configuration?.isSome = true := by decide +kernel
  refine ⟨hfree, hrelax, ?_⟩
  cases hs : crowded.solve none with
  | failed limit t => rw [hs] at hsome; cases hsome
  | solved c t =>
    obtain ⟨c', t', hs', hle⟩ := crowded.solve_relaxed true hs hfree hrelax
    exact ⟨c, t, c', t', rfl, hs', hle⟩

end Problem

end ClockSynth
