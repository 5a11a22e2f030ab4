import ClockSynth.Proofs.Divider
import ClockSynth.Solver

/-!
# The search finds the first match

The loops of a search, its two early ends and its cap come to this: cut the list of all candidates
where their position reaches the cap (`withinCap`), and take the first that is a configuration.
`foldlM_step` says so of any stretch of a search, from any tally.
-/

namespace ClockSynth

open Number

section Cap

variable {α : Type}

/-- What of a list stands, counted from `k`, at places that do not reach the cap. -/
def withinCapFrom (cap : Float) (k : Nat) (l : List α) : List α :=
  ((l.zipIdx k).filter fun x => !decide (cap ≤ x.2.toFloat)).map Prod.fst

/-- What of a list stands at places that do not reach the cap. -/
def withinCap (cap : Float) (l : List α) : List α :=
  withinCapFrom cap 0 l

theorem withinCapFrom_of_le {cap : Float} {k : ℕ} (h : cap ≤ k.toFloat) (l : List α) :
    withinCapFrom cap k l = [] := by
  unfold withinCapFrom
  rw [List.map_eq_nil_iff, List.filter_eq_nil_iff]
  rintro ⟨a, i⟩ hmem
  have hk : k ≤ i := List.le_snd_of_mem_zipIdx hmem
  have hi := double_le_trans h (toFloat_le hk)
  simp [hi]

theorem withinCapFrom_cons {cap : Float} {k : ℕ} (h : ¬ cap ≤ k.toFloat) (a : α) (l : List α) :
    withinCapFrom cap k (a :: l) = a :: withinCapFrom cap (k + 1) l := by
  simp [withinCapFrom, List.zipIdx_cons, h]

theorem withinCapFrom_isPrefix (cap : Float) :
    ∀ (k : ℕ) (l : List α), withinCapFrom cap k l <+: l
  | _, [] => List.prefix_rfl
  | k, a :: l => by
    by_cases h : cap ≤ k.toFloat
    · rw [withinCapFrom_of_le h]
      exact List.nil_prefix
    · rw [withinCapFrom_cons h]
      exact (List.cons_prefix_cons).2 ⟨rfl, withinCapFrom_isPrefix cap (k + 1) l⟩

end Cap

/-- A family with few dividers. -/
def Family.small : Family :=
  { Family.ecp5 with
    limits :=
      { Family.ecp5.limits with
        inputDivider := ⟨1, 2⟩
        feedbackDivider := ⟨1, 3⟩
        outputDivider := ⟨1, 3⟩ } }

/-- One request, which a spare output has to feed back for. -/
def Problem.small : Problem where
  family := Family.small
  inputFrequency := 250e6
  requests := [⟨0, "core", 250e6, 0, 0.01, true, false⟩]
  dynamicPhase := false

namespace Problem

/-- The triples over three lists in nesting order, without the input dividers that put the
phase-frequency detector out of its range. -/
def triples (p : Problem) (inputs outputs feedbacks : List Float) : List Dividers :=
  (inputs.filter fun i => p.family.limits.pfdFrequency.contains (p.inputFrequency / i)).flatMap
    fun i => outputs.flatMap fun o => feedbacks.map fun b => ⟨i, o, b⟩

theorem mem_triples_iff {p : Problem} {inputs outputs feedbacks : List Float} {d : Dividers} :
    d ∈ p.triples inputs outputs feedbacks
      ↔ d.input ∈ inputs
        ∧ p.family.limits.pfdFrequency.contains (p.inputFrequency / d.input) = true
        ∧ d.output ∈ outputs ∧ d.feedback ∈ feedbacks := by
  simp only [triples, List.mem_flatMap, List.mem_filter, List.mem_map]
  constructor
  · rintro ⟨i, ⟨hi, hpfd⟩, o, ho, b, hb, rfl⟩
    exact ⟨hi, hpfd, ho, hb⟩
  · rintro ⟨hi, hpfd, ho, hb⟩
    exact ⟨d.input, ⟨hi, hpfd⟩, d.output, ho, d.feedback, hb, rfl⟩

theorem candidates_eq_triples {p : Problem} {inputs outputs feedbacks : List Float}
    (hi : p.family.limits.inputDivider.Ends inputs)
    (ho : p.family.limits.outputDivider.Ends outputs)
    (hf : p.family.limits.feedbackDivider.Ends feedbacks) :
    p.candidates = p.triples inputs outputs feedbacks := by
  unfold candidates inputDividers triples
  rw [DividerRange.values_eq hi, DividerRange.values_eq ho, DividerRange.values_eq hf]

/-- A candidate that is a configuration. -/
def Valid (p : Problem) (d : Dividers) : Prop :=
  ∃ c, p.evaluate d = .ok c

variable {p : Problem} {cap : Float}

theorem step_cases (p : Problem) (cap : Float) (t : Tally) (d : Dividers) :
    (cap ≤ t.evaluated.toFloat ∧ p.step cap t d = .error (.capped, t))
      ∨ (¬ cap ≤ t.evaluated.toFloat ∧ ∃ c t', p.evaluate d = .ok c
          ∧ p.step cap t d = .error (.found c, t'))
      ∨ (¬ cap ≤ t.evaluated.toFloat ∧ ¬ p.Valid d ∧ ∃ t', p.step cap t d = .ok t'
          ∧ t'.evaluated = t.evaluated + 1) := by
  unfold step
  split_ifs with h
  · exact .inl ⟨h, rfl⟩
  · refine .inr ?_
    cases he : p.evaluate d with
    | ok c => exact .inl ⟨h, c, _, rfl, rfl⟩
    | error r =>
      refine .inr ⟨h, ?_, ?_⟩
      · rintro ⟨c, hc⟩
        rw [he] at hc
        cases hc
      · cases r <;> exact ⟨_, rfl, rfl⟩

/-- How a stretch of a search ends: with a configuration of the first valid candidate within the cap,
or else at the cap if that leaves some out, or else after the last. -/
inductive Ending (p : Problem) (cap : Float) (k : ℕ) (l : List Dividers) :
    Except (Halt × Tally) Tally → Prop
  | found (before : List Dividers) {after : List Dividers} {d : Dividers} {c : Configuration}
      {t : Tally} : withinCapFrom cap k l = before ++ d :: after → (∀ x ∈ before, ¬ p.Valid x) →
      p.evaluate d = .ok c → Ending p cap k l (.error (.found c, t))
  | capped {t : Tally} : (∀ x ∈ withinCapFrom cap k l, ¬ p.Valid x) →
      (withinCapFrom cap k l).length < l.length → Ending p cap k l (.error (.capped, t))
  | exhausted {t : Tally} : (∀ x ∈ withinCapFrom cap k l, ¬ p.Valid x) →
      withinCapFrom cap k l = l → Ending p cap k l (.ok t)

theorem Ending.cons {k : ℕ} {d : Dividers} {l : List Dividers} {r : Except (Halt × Tally) Tally}
    (hcap : ¬ cap ≤ k.toFloat) (hd : ¬ p.Valid d) (h : Ending p cap (k + 1) l r) :
    Ending p cap k (d :: l) r := by
  have hcons := withinCapFrom_cons hcap d l
  have hall (h : ∀ x ∈ withinCapFrom cap (k + 1) l, ¬ p.Valid x) :
      ∀ x ∈ withinCapFrom cap k (d :: l), ¬ p.Valid x := by
    intro x hx
    rw [hcons] at hx
    rcases List.mem_cons.1 hx with rfl | hx
    exacts [hd, h x hx]
  cases h with
  | found before hl hb he =>
    refine .found (d :: before) (by rw [hcons, hl]; rfl) ?_ he
    intro x hx
    rcases List.mem_cons.1 hx with rfl | hx
    exacts [hd, hb x hx]
  | capped hl hlt => exact .capped (hall hl) (by rw [hcons]; simpa using hlt)
  | exhausted hl heq => exact .exhausted (hall hl) (by rw [hcons, heq])

/-- A stretch of a search, by induction on the candidates it has to go. -/
theorem foldlM_step :
    ∀ (l : List Dividers) (t : Tally), Ending p cap t.evaluated l (l.foldlM (p.step cap) t)
  | [], t => .exhausted (by simp [withinCapFrom]) (by simp [withinCapFrom])
  | d :: l, t => by
    rw [List.foldlM_cons]
    rcases step_cases p cap t d with ⟨hcap, hs⟩ | ⟨hcap, c, t', he, hs⟩ | ⟨hcap, hd, t', hs, ht⟩ <;>
      rw [hs]
    · have hnil := withinCapFrom_of_le hcap (d :: l)
      exact .capped (by simp [hnil]) (by simp [hnil])
    · exact .found [] (withinCapFrom_cons hcap d l) (by simp) he
    · have hl := foldlM_step l t'
      rw [ht] at hl
      exact hl.cons hcap hd

theorem search_ending (p : Problem) (cap : Float) : Ending p cap 0 p.candidates (p.search cap) := by
  rw [search_eq_foldlM]
  exact foldlM_step p.candidates {}

theorem solve_cases (p : Problem) (cap : Option Float) :
    (∃ before d after c t, withinCap (p.capOr cap) p.candidates = before ++ d :: after
        ∧ (∀ x ∈ before, ¬ p.Valid x) ∧ p.evaluate d = .ok c ∧ p.solve cap = .solved c t)
      ∨ ∃ limit t, (∀ x ∈ withinCap (p.capOr cap) p.candidates, ¬ p.Valid x)
        ∧ (limit.isSome = true ↔
            (withinCap (p.capOr cap) p.candidates).length < p.candidates.length)
        ∧ p.solve cap = .failed limit t := by
  have hend := search_ending p (p.capOr cap)
  unfold solve
  simp only []
  generalize p.search (p.capOr cap) = r at hend
  cases hend with
  | found _ hl hb he => exact .inl ⟨_, _, _, _, _, hl, hb, he, rfl⟩
  | capped hl hlt => exact .inr ⟨_, _, hl, iff_of_true rfl hlt, rfl⟩
  | exhausted hl heq =>
    refine .inr ⟨none, _, hl, iff_of_false Bool.false_ne_true ?_, rfl⟩
    exact (congrArg List.length heq).not_lt

/-- A solution is the configuration of a candidate. -/
theorem exists_mem_candidates_of_solved {cap : Option Float} {c : Configuration} {t : Tally}
    (h : p.solve cap = .solved c t) : ∃ d ∈ p.candidates, p.evaluate d = .ok c := by
  rcases p.solve_cases cap with ⟨before, d, after, c', t', hl, -, he, hs⟩ | ⟨_, _, -, -, hs⟩ <;>
    rw [hs] at h <;> cases h
  refine ⟨d, (withinCapFrom_isPrefix (p.capOr cap) 0 p.candidates).subset ?_, he⟩
  show d ∈ withinCap (p.capOr cap) p.candidates
  rw [hl]
  simp

/-- The search solves a problem with the first valid triple within the cap, and if there is none it
fails, at its limit just if the cap left triples out. -/
theorem solve_first_match (p : Problem) (cap : Option Float) {inputs outputs feedbacks : List Float}
    (hi : p.family.limits.inputDivider.Ends inputs)
    (ho : p.family.limits.outputDivider.Ends outputs)
    (hf : p.family.limits.feedbackDivider.Ends feedbacks) :
    let all := p.triples inputs outputs feedbacks
    let tried := withinCap (cap.getD p.family.limits.combinations) all
    tried <+: all
      ∧ ((∃ c t, p.solve cap = .solved c t) ↔ ∃ d ∈ tried, p.Valid d)
      ∧ (∀ c t, p.solve cap = .solved c t → ∃ before d after, tried = before ++ d :: after
          ∧ (∀ x ∈ before, ¬ p.Valid x) ∧ p.evaluate d = .ok c)
      ∧ ((∀ d ∈ tried, ¬ p.Valid d) → ∃ limit t, p.solve cap = .failed limit t
          ∧ ((p.solve cap).statistics.limitReached = true ↔ tried.length < all.length)) := by
  intro all tried
  have hcases := p.solve_cases cap
  rw [candidates_eq_triples hi ho hf] at hcases
  refine ⟨withinCapFrom_isPrefix _ 0 all, ?_⟩
  rcases hcases with ⟨before, d, after, c, t, hl, hb, he, hs⟩ | ⟨limit, t, hl, hlimit, hs⟩ <;> rw [hs]
  · have hd : d ∈ tried := by
      show d ∈ withinCap (p.capOr cap) (p.triples inputs outputs feedbacks)
      rw [hl]
      simp
    refine ⟨⟨fun _ => ⟨d, hd, c, he⟩, fun _ => ⟨c, t, rfl⟩⟩, ?_, ?_⟩
    · rintro c' t' h
      cases h
      exact ⟨before, d, after, hl, hb, he⟩
    · intro hnone
      exact absurd ⟨c, he⟩ (hnone d hd)
  · refine ⟨⟨?_, ?_⟩, ?_, ?_⟩
    · rintro ⟨c, t, h⟩
      cases h
    · rintro ⟨d, hd, hv⟩
      exact absurd hv (hl d hd)
    · rintro c t h
      cases h
    · intro _
      exact ⟨limit, t, rfl, hlimit⟩

theorem solve_first_match_small :
    Family.small.limits.inputDivider.Ends [1] ∧ Family.small.limits.outputDivider.Ends [1, 2]
      ∧ Family.small.limits.feedbackDivider.Ends [1, 2]
      ∧ ((∃ c t, small.solve (some 1) = .solved c t)
        ↔ ∃ d ∈ withinCap 1 (small.triples [1] [1, 2] [1, 2]), small.Valid d) := by
  have hi : Family.small.limits.inputDivider.Ends [1] :=
    DividerRange.ends_of_countFrom 4 (by decide +kernel) (by decide)
  have ho : Family.small.limits.outputDivider.Ends [1, 2] :=
    DividerRange.ends_of_countFrom 4 (by decide +kernel) (by decide)
  exact ⟨hi, ho, ho, (solve_first_match small (some 1) hi ho ho).2.1⟩

end Problem

end ClockSynth
