import ClockSynth.Proofs.Search

/-!
# What a search counts

What a search may try is settled before it begins: the candidates within its cap (`Problem.reach`).
Those that are rejected go into the tally one by one (`foldlM_rejected`), so the whole outcome, with
its counts, follows from where the first valid candidate stands (`solve_of_first`), or from there
being none (`solve_of_none`).
-/

namespace ClockSynth

open Number

section Cap

variable {α : Type} {cap : Float}

theorem not_cap_le_of_lt :
    ∀ {k : ℕ} {l : List α} {i : ℕ}, i < (withinCapFrom cap k l).length → ¬ cap ≤ (k + i).toFloat
  | k, [], i, h => by simp [withinCapFrom] at h
  | k, a :: l, i, h => by
    by_cases hk : cap ≤ k.toFloat
    · simp [withinCapFrom_of_le hk] at h
    · rw [withinCapFrom_cons hk, List.length_cons] at h
      cases i with
      | zero => exact hk
      | succ i =>
        have ih := not_cap_le_of_lt (Nat.lt_of_succ_lt_succ h)
        rwa [Nat.add_assoc, Nat.add_comm 1 i] at ih

/-- Where the cap cuts a list, it is reached. -/
theorem cap_le_of_length_lt :
    ∀ {k : ℕ} {l : List α}, (withinCapFrom cap k l).length < l.length →
      cap ≤ (k + (withinCapFrom cap k l).length).toFloat
  | k, [], h => by simp at h
  | k, a :: l, h => by
    by_cases hk : cap ≤ k.toFloat
    · rwa [withinCapFrom_of_le hk]
    · rw [withinCapFrom_cons hk, List.length_cons, List.length_cons] at h
      have ih := cap_le_of_length_lt (Nat.lt_of_succ_lt_succ h)
      rwa [withinCapFrom_cons hk, List.length_cons, Nat.add_comm _ 1, ← Nat.add_assoc]

/-- A place stands within the cap just if it is a place of the list that does not reach the cap. -/
theorem lt_length_withinCapFrom_iff {k : ℕ} {l : List α} {i : ℕ} :
    i < (withinCapFrom cap k l).length ↔ i < l.length ∧ ¬ cap ≤ (k + i).toFloat := by
  constructor
  · intro h
    exact ⟨h.trans_le (withinCapFrom_isPrefix cap k l).length_le, not_cap_le_of_lt h⟩
  · rintro ⟨hi, hcap⟩
    by_contra hle
    rw [not_lt] at hle
    have hcut := cap_le_of_length_lt (hle.trans_lt hi)
    exact hcap (double_le_trans hcut (toFloat_le (Nat.add_le_add_left hle k)))

end Cap

namespace Problem

/-- The candidate keeps the VCO in its range. -/
def tunes (p : Problem) (d : Dividers) : Bool :=
  p.family.limits.vcoFrequency.contains (p.vco d)

/-- Counts candidates that are all rejected. -/
def rejecting (p : Problem) (t : Tally) (l : List Dividers) : Tally where
  evaluated := t.evaluated + l.length
  candidates := t.candidates + l.countP p.tunes
  rejected := t.rejected + l.countP p.tunes

/-- Counts a candidate that is valid. -/
def accepting (t : Tally) : Tally :=
  { t with evaluated := t.evaluated + 1, candidates := t.candidates + 1 }

/-- The candidates that a search under this cap may try. -/
def reach (p : Problem) (cap : Option Float) : List Dividers :=
  withinCap (p.capOr cap) p.candidates

/-- The cap, if it leaves candidates out. -/
def cut? (p : Problem) (cap : Option Float) : Option Float :=
  if (p.reach cap).length < p.candidates.length then some (p.capOr cap) else none

variable {p : Problem} {cap : Float} {t : Tally} {d : Dividers} {c : Configuration}

theorem evaluated_rejecting (p : Problem) (l : List Dividers) :
    (p.rejecting {} l).evaluated = l.length :=
  Nat.zero_add _

theorem rejecting_cons (t : Tally) (d : Dividers) (l : List Dividers) :
    p.rejecting (p.rejecting t [d]) l = p.rejecting t (d :: l) := by
  simp only [rejecting, List.countP_cons, List.countP_nil, List.length_cons, List.length_nil,
    Tally.mk.injEq]
  omega

theorem step_of_reached (h : cap ≤ t.evaluated.toFloat) : p.step cap t d = .error (.capped, t) :=
  if_pos h

theorem step_of_valid (h : ¬ cap ≤ t.evaluated.toFloat) (he : p.evaluate d = .ok c) :
    p.step cap t d = .error (.found c, accepting t) := by
  rw [step, if_neg h, he]
  rfl

theorem step_of_not_valid (h : ¬ cap ≤ t.evaluated.toFloat) (hd : ¬ p.Valid d) :
    p.step cap t d = .ok (p.rejecting t [d]) := by
  rw [step, if_neg h]
  cases he : p.evaluate d with
  | ok c => exact absurd ⟨c, he⟩ hd
  | error r =>
    have htunes : p.tunes d = false ↔ r = .vcoOutOfRange := by
      rw [tunes, ← evaluate_eq_vcoOutOfRange_iff, he, Except.error.injEq]
    cases r <;> simp [rejecting, htunes]

/-- Candidates stay within the cap when the one before them is counted. -/
theorem within_of_cons {l : List Dividers}
    (hcap : ∀ i < (d :: l).length, ¬ cap ≤ (t.evaluated + i).toFloat) :
    ∀ i < l.length, ¬ cap ≤ ((p.rejecting t [d]).evaluated + i).toFloat := by
  intro i hi
  have := hcap (i + 1) (Nat.succ_lt_succ hi)
  rwa [Nat.add_comm i 1, ← Nat.add_assoc] at this

/-- Rejected candidates within the cap are counted, and the search goes on after them. -/
theorem foldlM_rejected :
    ∀ {l : List Dividers} {t : Tally}, (∀ i < l.length, ¬ cap ≤ (t.evaluated + i).toFloat) →
      (∀ x ∈ l, ¬ p.Valid x) → l.foldlM (p.step cap) t = .ok (p.rejecting t l)
  | [], _, _, _ => rfl
  | d :: l, t, hcap, hl => by
    rw [List.forall_mem_cons] at hl
    have hhead := step_of_not_valid (hcap 0 (Nat.succ_pos _)) hl.1
    rw [List.foldlM_cons, hhead]
    exact (foldlM_rejected (within_of_cons hcap) hl.2).trans (by rw [rejecting_cons])

section Outcome

variable {cap : Option Float}

theorem not_cap_le_before {before : List Dividers} (hle : before.length ≤ (p.reach cap).length) :
    ∀ i < before.length, ¬ p.capOr cap ≤ (({} : Tally).evaluated + i).toFloat :=
  fun _ hi => not_cap_le_of_lt (hi.trans_le hle)

/-- The search comes to any candidate within its cap with those before it counted, if these are all
rejected. -/
theorem search_after {before after : List Dividers} (h : p.candidates = before ++ after)
    (hle : before.length ≤ (p.reach cap).length) (hb : ∀ x ∈ before, ¬ p.Valid x) :
    p.search (p.capOr cap) = after.foldlM (p.step (p.capOr cap)) (p.rejecting {} before) := by
  have hcap := not_cap_le_before hle
  rw [search_eq_foldlM, h, List.foldlM_append, foldlM_rejected hcap hb]
  rfl

/-- A candidate is within reach just if its place does not reach the cap. -/
theorem lt_length_reach_iff {i : ℕ} :
    i < (p.reach cap).length ↔ i < p.candidates.length ∧ ¬ p.capOr cap ≤ i.toFloat := by
  rw [reach, withinCap, lt_length_withinCapFrom_iff, Nat.zero_add]

theorem cap_le_length_reach (h : (p.reach cap).length < p.candidates.length) :
    p.capOr cap ≤ (p.reach cap).length.toFloat := by
  by_contra hcap
  exact absurd (lt_length_reach_iff.2 ⟨h, hcap⟩) (lt_irrefl _)

theorem exists_candidates_eq (p : Problem) (cap : Option Float) :
    ∃ rest, p.candidates = p.reach cap ++ rest := by
  obtain ⟨rest, h⟩ := withinCapFrom_isPrefix (p.capOr cap) 0 p.candidates
  exact ⟨rest, h.symm⟩

/-- A search ends at the first valid candidate if this stands within its cap. -/
theorem solve_at {before after : List Dividers} (h : p.candidates = before ++ d :: after)
    (hlt : before.length < (p.reach cap).length) (hb : ∀ x ∈ before, ¬ p.Valid x)
    (he : p.evaluate d = .ok c) : p.solve cap = .solved c (accepting (p.rejecting {} before)) := by
  have hcap := (lt_length_reach_iff.1 hlt).2
  have hsearch := search_after h hlt.le hb
  rw [← p.evaluated_rejecting] at hcap
  rw [List.foldlM_cons, step_of_valid hcap he] at hsearch
  rw [solve, hsearch]
  rfl

theorem exists_candidates_after {before after : List Dividers}
    (hl : p.reach cap = before ++ d :: after) :
    ∃ rest, p.candidates = before ++ d :: rest ∧ before.length < (p.reach cap).length := by
  obtain ⟨rest, hrest⟩ := p.exists_candidates_eq cap
  rw [hl, List.append_assoc] at hrest
  refine ⟨after ++ rest, hrest, ?_⟩
  rw [hl, List.length_append, List.length_cons]
  omega

/-- What comes after the candidates within the cap is kept back by it. -/
theorem cap_le_of_candidates_eq {rest : List Dividers}
    (h : p.candidates = p.reach cap ++ d :: rest) :
    p.capOr cap ≤ (p.rejecting {} (p.reach cap)).evaluated.toFloat := by
  rw [evaluated_rejecting]
  exact cap_le_length_reach (by simp [h])

theorem solve_of_first {before after : List Dividers} (hl : p.reach cap = before ++ d :: after)
    (hb : ∀ x ∈ before, ¬ p.Valid x) (he : p.evaluate d = .ok c) :
    p.solve cap = .solved c (accepting (p.rejecting {} before)) := by
  obtain ⟨rest, hrest, hlt⟩ := exists_candidates_after hl
  exact solve_at hrest hlt hb he

/-- A search without a valid candidate within its cap fails, at the cap if this left any out. -/
theorem solve_of_none (h : ∀ x ∈ p.reach cap, ¬ p.Valid x) :
    p.solve cap = .failed (p.cut? cap) (p.rejecting {} (p.reach cap)) := by
  obtain ⟨rest, hrest⟩ := p.exists_candidates_eq cap
  have hsearch := search_after hrest le_rfl h
  cases rest with
  | nil =>
    have hcut : p.cut? cap = none := if_neg (by simp [hrest])
    rw [solve, hsearch, hcut]
    rfl
  | cons d rest =>
    have hlt : (p.reach cap).length < p.candidates.length := by simp [hrest]
    rw [List.foldlM_cons, step_of_reached (cap_le_of_candidates_eq hrest)] at hsearch
    rw [solve, hsearch, cut?, if_pos hlt]
    rfl

/-- The outcome of a search, with all its counts. -/
theorem solve_outcome (p : Problem) (cap : Option Float) :
    (∃ before d after c, p.reach cap = before ++ d :: after ∧ (∀ x ∈ before, ¬ p.Valid x)
        ∧ p.evaluate d = .ok c
        ∧ p.solve cap = .solved c (accepting (p.rejecting {} before)))
      ∨ (∀ x ∈ p.reach cap, ¬ p.Valid x)
        ∧ p.solve cap = .failed (p.cut? cap) (p.rejecting {} (p.reach cap)) := by
  rcases p.solve_cases cap with ⟨before, d, after, c, t, hl, hb, he, -⟩ | ⟨limit, t, hl, -, -⟩
  · exact .inl ⟨before, d, after, c, hl, hb, he, solve_of_first hl hb he⟩
  · exact .inr ⟨hl, solve_of_none hl⟩

end Outcome

end Problem

end ClockSynth
