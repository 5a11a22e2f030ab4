import ClockSynth.Proofs.Verdict

/-!
# Problems with one loop

Two problems on one family and with one input frequency are searched over the same candidates, at
the same frequencies, whatever their requests are. Where validity passes from the candidates of one
to those of the other, the other is solved no later (`solve_mono`); where it passes both ways, the
two searches end at the same candidate with the same counts (`solve_congr`).
-/

namespace ClockSynth.Problem

/-- The problems differ at most in what they request. -/
structure SameLoop (p q : Problem) : Prop where
  family : q.family = p.family
  inputFrequency : q.inputFrequency = p.inputFrequency

theorem length_le_of_first {α : Type} {P : α → Prop} {before before' after after' : List α}
    {a a' : α} (h : before ++ a :: after = before' ++ a' :: after')
    (hb' : ∀ x ∈ before', ¬ P x) (ha : P a) : before'.length ≤ before.length := by
  by_contra hlt
  have hget : (before ++ a :: after)[before.length]? = some a := by simp
  rw [h, List.getElem?_append_left (not_le.1 hlt)] at hget
  exact hb' a (List.mem_of_getElem? hget) ha

variable {p q : Problem} {cap : Option Float}

namespace SameLoop

variable {d : Dividers} {r : Request}

theorem vco (h : SameLoop p q) (d : Dividers) : q.vco d = p.vco d := by
  rw [Problem.vco, Problem.vco, h.inputFrequency]

theorem tunes (h : SameLoop p q) : q.tunes = p.tunes := by
  funext d
  rw [Problem.tunes, Problem.tunes, h.family, h.vco]

theorem rejecting (h : SameLoop p q) : q.rejecting = p.rejecting := by
  funext t l
  rw [Problem.rejecting, Problem.rejecting, h.tunes]

theorem capOr (h : SameLoop p q) (cap : Option Float) : q.capOr cap = p.capOr cap := by
  rw [Problem.capOr, Problem.capOr, h.family]

theorem candidates (h : SameLoop p q) : q.candidates = p.candidates := by
  unfold Problem.candidates Problem.inputDividers
  rw [h.family, h.inputFrequency]

theorem reach (h : SameLoop p q) (cap : Option Float) : q.reach cap = p.reach cap := by
  rw [Problem.reach, Problem.reach, h.candidates, h.capOr]

theorem cut? (h : SameLoop p q) (cap : Option Float) : q.cut? cap = p.cut? cap := by
  rw [Problem.cut?, Problem.cut?, h.candidates, h.capOr, h.reach]

theorem serve (h : SameLoop p q) : q.serve = p.serve := by
  funext d r
  rw [Problem.serve, Problem.serve, h.family, h.vco]

theorem reaches_iff (h : SameLoop p q) : q.Reaches d r ↔ p.Reaches d r := by
  rw [Reaches, Reaches, h.family, h.vco]

end SameLoop

/-- A search that may stop wherever another one does stops there or earlier. -/
theorem solve_mono (h : SameLoop p q) (hvalid : ∀ d, p.Valid d → q.Valid d) {c : Configuration}
    {t : Tally} (hs : p.solve cap = .solved c t) :
    ∃ c' t', q.solve cap = .solved c' t' ∧ t'.evaluated ≤ t.evaluated := by
  rcases p.solve_outcome cap with ⟨before, d, after, c₀, hl, -, he, hp⟩ | ⟨-, hp⟩ <;>
    rw [hp] at hs <;> cases hs
  have hd : q.Valid d := hvalid d ⟨c, he⟩
  rcases q.solve_outcome cap with ⟨before', d', after', c', hl', hb', -, hq⟩ | ⟨hnone, -⟩
  · refine ⟨c', _, hq, ?_⟩
    have hsplit := hl.symm.trans ((h.reach cap).symm.trans hl')
    have hle := length_le_of_first hsplit hb' hd
    simpa [accepting, rejecting] using hle
  · refine absurd hd (hnone d ?_)
    rw [h.reach, hl]
    simp

/-- Two searches with the same valid candidates end at the same candidate with the same counts. -/
theorem solve_congr (h : SameLoop p q) (hvalid : ∀ d, p.Valid d ↔ q.Valid d) (cap : Option Float) :
    (∃ d c c' t, p.evaluate d = .ok c ∧ q.evaluate d = .ok c' ∧ p.solve cap = .solved c t
        ∧ q.solve cap = .solved c' t)
      ∨ ∃ limit t, p.solve cap = .failed limit t ∧ q.solve cap = .failed limit t := by
  rcases p.solve_outcome cap with ⟨before, d, after, c, hl, hb, he, hp⟩ | ⟨hnone, hp⟩
  · obtain ⟨c', he'⟩ := (hvalid d).1 ⟨c, he⟩
    have hb' : ∀ x ∈ before, ¬ q.Valid x := fun x hx hv => hb x hx ((hvalid x).2 hv)
    have hq := solve_of_first ((h.reach cap).trans hl) hb' he'
    rw [h.rejecting] at hq
    exact .inl ⟨d, c, c', _, he, he', hp, hq⟩
  · have hnone' : ∀ x ∈ q.reach cap, ¬ q.Valid x := fun x hx hv =>
      hnone x (h.reach cap ▸ hx) ((hvalid x).2 hv)
    have hq := solve_of_none hnone'
    rw [h.rejecting, h.reach, h.cut?] at hq
    exact .inr ⟨_, _, hp, hq⟩

end ClockSynth.Problem
