import ClockSynth.Proofs.Cap

/-!
# What a cap decides

A cap decides whether the answer of a search is reached, and never which it is. Against the search
that no cap keeps back (`unlimited`), a search with a cap beyond the last place that the other one
evaluates comes to the same end. With a cap at that place or before, it evaluates as many candidates
as the cap says, rounded up, and fails (`solve_cap`).
-/

namespace ClockSynth

open Number

/-- The cap that keeps nothing back. -/
def unlimited : Float :=
  1 / 0

namespace DividerRange

theorem length_countFrom_le (high : Float) : ∀ (n : ℕ) (d : Float), (countFrom high n d).length ≤ n
  | 0, _ => le_rfl
  | n + 1, d => by
    unfold countFrom
    split_ifs
    · exact Nat.succ_le_succ (length_countFrom_le high n (d + 1))
    · exact Nat.zero_le _

theorem length_values_le (r : DividerRange) : r.values.length ≤ 2 ^ 64 :=
  length_countFrom_le r.high steps r.low

end DividerRange

/-- More than there are candidates of any problem. -/
theorem toFloat_lt_unlimited {n : ℕ} (h : n ≤ 2 ^ 192) :
    n.toFloat.isFinite = true ∧ ¬ unlimited ≤ n.toFloat := by
  have hmost : (2 ^ 192 : ℕ).toFloat.isFinite = true ∧ ¬ unlimited ≤ (2 ^ 192 : ℕ).toFloat := by
    decide +kernel
  have hle := toFloat_le h
  have hzero := (value_toFloat (Nat.zero_le (2 ^ 53))).1
  exact ⟨isFinite_of_le_of_le hzero hmost.1 (toFloat_le n.zero_le) hle,
    fun hge => hmost.2 (double_le_trans hge hle)⟩

namespace Problem

variable {p : Problem} {L : Float}

theorem length_candidates_le (p : Problem) : p.candidates.length ≤ 2 ^ 192 := by
  have hlength := length_triples_le p p.family.limits.inputDivider.values
    p.family.limits.outputDivider.values p.family.limits.feedbackDivider.values
  refine hlength.trans ?_
  calc p.family.limits.inputDivider.values.length * p.family.limits.outputDivider.values.length
        * p.family.limits.feedbackDivider.values.length
      ≤ 2 ^ 64 * 2 ^ 64 * 2 ^ 64 := by
        gcongr <;> exact DividerRange.length_values_le _
    _ = 2 ^ 192 := by norm_num

theorem capOr_some (p : Problem) (L : Float) : p.capOr (some L) = L :=
  rfl

theorem reach_unlimited (p : Problem) : p.reach (some unlimited) = p.candidates :=
  reach_eq_candidates fun _ hi => (toFloat_lt_unlimited (hi.le.trans p.length_candidates_le)).2

/-- A cap at a place before which no candidate is valid ends the search there or earlier, after as
many candidates as the cap says. -/
theorem solve_short {m : ℕ} (hm : m < p.candidates.length) (hL : L ≤ m.toFloat)
    (hb : ∀ x ∈ p.candidates.take m, ¬ p.Valid x) :
    ∃ t, p.solve (some L) = .failed (some L) t ∧ t.evaluated ≤ m
      ∧ value t.evaluated.toFloat = ((max 0 ⌈value L⌉ : ℤ) : ℚ) := by
  have hle : (p.reach (some L)).length ≤ m := by
    by_contra hlt
    exact (lt_length_reach_iff.1 (not_le.1 hlt)).2 hL
  have hlt := hle.trans_lt hm
  obtain ⟨rest, hrest⟩ := p.exists_candidates_eq (some L)
  have hnone : ∀ x ∈ p.reach (some L), ¬ p.Valid x := by
    intro x hx
    refine hb x ?_
    rw [hrest, List.take_append]
    exact List.mem_append_left _ (by rwa [List.take_of_length_le hle])
  have hs := solve_of_none hnone
  rw [cut?, if_pos hlt] at hs
  refine ⟨_, hs, ?_⟩
  rw [evaluated_rejecting]
  have hfinite := (toFloat_lt_unlimited (hlt.le.trans p.length_candidates_le)).1
  have hreached := cap_le_length_reach hlt
  rw [capOr_some] at hreached
  have hbefore : ∀ i < (p.reach (some L)).length, ¬ L ≤ i.toFloat := fun i hi =>
    (lt_length_reach_iff.1 hi).2
  exact ⟨hle, value_toFloat_of_first hfinite hreached hbefore⟩

/-- A cap beyond all the places that a search without one evaluates changes nothing. -/
theorem solve_beyond (h : ∀ i < (p.solve (some unlimited)).statistics.evaluated, ¬ L ≤ i.toFloat) :
    p.solve (some L) = p.solve (some unlimited) := by
  rcases p.solve_outcome (some unlimited) with
    ⟨before, d, after, c, hl, hb, he, hs⟩ | ⟨hnone, hs⟩ <;> rw [hs] at h ⊢
  · rw [reach_unlimited] at hl
    have hlt : before.length < p.candidates.length := by simp [hl]
    have hcap := h before.length (by simp [Outcome.statistics, accepting, evaluated_rejecting])
    exact solve_at hl (lt_length_reach_iff.2 ⟨hlt, hcap⟩) hb he
  · rw [reach_unlimited] at hnone h ⊢
    have hreach : p.reach (some L) = p.candidates := reach_eq_candidates fun i hi =>
      h i (by simpa [Outcome.statistics, evaluated_rejecting] using hi)
    have hs' := solve_of_none (hreach ▸ hnone)
    rw [hs', hreach, cut?_eq_none hreach, cut?_eq_none p.reach_unlimited]

/-- Before the last place that a search without a cap evaluates no candidate is valid. -/
theorem not_valid_before {m : ℕ} (h : (p.solve (some unlimited)).statistics.evaluated = m + 1) :
    m < p.candidates.length ∧ ∀ x ∈ p.candidates.take m, ¬ p.Valid x := by
  rcases p.solve_outcome (some unlimited) with
    ⟨before, d, after, c, hl, hb, he, hs⟩ | ⟨hnone, hs⟩ <;> rw [hs] at h
  · rw [reach_unlimited] at hl
    have hm : before.length = m := by
      simpa [Outcome.statistics, accepting, evaluated_rejecting] using h
    rw [hl, List.take_left' hm]
    exact ⟨by simp [← hm], hb⟩
  · rw [reach_unlimited] at hnone h
    have hm : p.candidates.length = m + 1 := by
      simpa [Outcome.statistics, evaluated_rejecting] using h
    exact ⟨by omega, fun x hx => hnone x (List.mem_of_mem_take hx)⟩

theorem limitReached_unlimited (p : Problem) :
    (p.solve (some unlimited)).statistics.limitReached = false := by
  rcases p.solve_outcome (some unlimited) with ⟨_, _, _, _, -, -, -, hs⟩ | ⟨-, hs⟩ <;> rw [hs]
  · rfl
  · rw [cut?_eq_none p.reach_unlimited]
    rfl

theorem evaluated_pos_of_solved {c : Configuration} {t : Tally}
    (h : p.solve (some unlimited) = .solved c t) : 0 < t.evaluated := by
  rcases p.solve_outcome (some unlimited) with ⟨before, d, after, c', -, -, -, hs⟩ | ⟨-, hs⟩ <;>
    rw [h] at hs <;> cases hs
  exact Nat.succ_pos _

/-- A cap decides whether the answer is reached, never which. A cap that is no number, or beyond the
last place that a search without a cap evaluates, leaves its outcome as it is; any other one makes
the search fail at the cap, after as many combinations as it says, rounded up and at least none. The
number is compared as a double, like the cap; up to `2 ^ 53` it is the number itself. An infinity
has the value 0. -/
theorem solve_cap (p : Problem) (L : Float) :
    let free := p.solve (some unlimited)
    let n := free.statistics.evaluated
    let r := p.solve (some L)
    free.statistics.limitReached = false
      ∧ (∀ c t, free = .solved c t → 0 < n)
      ∧ (n = 0 → r = free)
      ∧ (0 < n → L.isNaN = true ∨ (n - 1).toFloat < L → r = free)
      ∧ (0 < n → L ≤ (n - 1).toFloat →
        ∃ t, r = .failed (some L) t ∧ r.statistics.limitReached = true
          ∧ value t.evaluated.toFloat = ((max 0 ⌈value L⌉ : ℤ) : ℚ)
          ∧ (n ≤ 2 ^ 53 → (t.evaluated : ℤ) = max 0 ⌈value L⌉)) := by
  intro free n r
  refine ⟨p.limitReached_unlimited, ?_, ?_, ?_, ?_⟩
  · intro c t hs
    have := evaluated_pos_of_solved hs
    rwa [← show n = t.evaluated from congrArg (·.statistics.evaluated) hs] at this
  · intro hn
    refine solve_beyond fun i hi => ?_
    change i < n at hi
    omega
  · intro hn hL
    refine solve_beyond fun i hi hle => ?_
    change i < n at hi
    have hlast := double_le_trans hle (toFloat_le (by omega : i ≤ n - 1))
    rcases hL with hL | hL
    · rw [(le_iff.1 hlast).1] at hL
      cases hL
    · exact absurd hL ((not_le_iff_lt (le_iff.1 hlast).1 (isNaN_toFloat _)).not.1 (not_not.2 hlast))
  · intro hn hL
    obtain ⟨hm, hb⟩ := not_valid_before (show n = n - 1 + 1 by omega)
    obtain ⟨t, hs, hle, hcount⟩ := solve_short hm hL hb
    refine ⟨t, hs, congrArg (·.statistics.limitReached) hs, hcount, fun h53 => ?_⟩
    rw [(value_toFloat (by omega)).2] at hcount
    exact_mod_cast hcount

/-- The solution is the second combination, so the cap has to be more than 1. -/
theorem solve_cap_small :
    (small.solve (some unlimited)).statistics.evaluated = 2
      ∧ small.solve (some 1.5) = small.solve (some unlimited)
      ∧ ∃ t, small.solve (some 0.5) = .failed (some 0.5) t
        ∧ (t.evaluated : ℤ) = max 0 ⌈value 0.5⌉ := by
  have hn : (small.solve (some unlimited)).statistics.evaluated = 2 := by decide +kernel
  obtain ⟨-, -, -, hbeyond, -⟩ := solve_cap small 1.5
  obtain ⟨-, -, -, -, hshort⟩ := solve_cap small 0.5
  rw [hn] at hbeyond hshort
  obtain ⟨t, hs, -, -, hcount⟩ := hshort (by decide) (by decide +kernel)
  exact ⟨hn, hbeyond (by decide) (.inr (by decide +kernel)), t, hs, hcount (by decide)⟩

end Problem

end ClockSynth
