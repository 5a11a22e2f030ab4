import Mathlib.Data.List.Forall2

/-!
# Traversals that can fail

What `mapM` gives on a list when each step can fail: a result for every item (`mapM_eq_ok_iff`), or
the first failure (`mapM_eq_error`).
-/

namespace ClockSynth

theorem mapM_eq_some_iff {α β : Type} (f : α → Option β) :
    ∀ (l : List α) (l' : List β),
      l.mapM f = some l' ↔ List.Forall₂ (fun a b => f a = some b) l l'
  | [], l' => by
    rw [List.mapM_nil, List.forall₂_nil_left_iff]
    simp [eq_comm]
  | a :: l, l' => by
    rw [List.mapM_cons, List.forall₂_cons_left_iff]
    simp only [Option.bind_eq_bind, Option.bind_eq_some_iff, Option.pure_def, Option.some.injEq]
    constructor
    · rintro ⟨b, hb, t, ht, rfl⟩
      exact ⟨b, t, hb, (mapM_eq_some_iff f l t).1 ht, rfl⟩
    · rintro ⟨b, t, hb, ht, rfl⟩
      exact ⟨b, hb, t, (mapM_eq_some_iff f l t).2 ht, rfl⟩

theorem mapM_eq_ok_iff {α β ε : Type} (f : α → Except ε β) :
    ∀ (l : List α) (l' : List β),
      l.mapM f = .ok l' ↔ List.Forall₂ (fun a b => f a = .ok b) l l'
  | [], l' => by
    rw [List.mapM_nil, List.forall₂_nil_left_iff]
    simp [eq_comm, pure, Except.pure]
  | a :: l, l' => by
    rw [List.mapM_cons, List.forall₂_cons_left_iff]
    cases ha : f a with
    | error e => simp [bind, Except.bind]
    | ok b =>
      cases hl : l.mapM f with
      | error e => simp [bind, Except.bind, ← mapM_eq_ok_iff f l, hl]
      | ok t => simp [bind, Except.bind, pure, Except.pure, ← mapM_eq_ok_iff f l, hl, eq_comm]

theorem exists_mapM_eq_ok {α β ε : Type} {f : α → Except ε β} :
    ∀ {l : List α}, (∀ a ∈ l, ∃ b, f a = .ok b) → ∃ l', l.mapM f = .ok l'
  | [], _ => ⟨[], rfl⟩
  | a :: l, h => by
    obtain ⟨b, hb⟩ := h a List.mem_cons_self
    obtain ⟨l', hl⟩ := exists_mapM_eq_ok fun x hx => h x (List.mem_cons_of_mem a hx)
    exact ⟨b :: l', (mapM_eq_ok_iff f _ _).2 (.cons hb ((mapM_eq_ok_iff f _ _).1 hl))⟩

/-- A traversal ends with the first failure. -/
theorem mapM_eq_error {α β ε : Type} {f : α → Except ε β} {a : α} {e : ε} (ha : f a = .error e) :
    ∀ {before after : List α}, (∀ b ∈ before, ∃ r, f b = .ok r) →
      (before ++ a :: after).mapM f = .error e
  | [], after, _ => by
    rw [List.nil_append, List.mapM_cons, ha]
    rfl
  | b :: before, after, h => by
    rw [List.forall_mem_cons] at h
    obtain ⟨⟨r, hr⟩, hbefore⟩ := h
    rw [List.cons_append, List.mapM_cons, hr, mapM_eq_error ha hbefore]
    rfl

theorem exists_left_of_mem_right {α β : Type} {R : α → β → Prop} {l : List α} {l' : List β}
    (h : List.Forall₂ R l l') : ∀ b ∈ l', ∃ a ∈ l, R a b := by
  induction h with
  | nil => simp
  | cons hr _ ih =>
    rw [List.forall_mem_cons]
    exact ⟨⟨_, List.mem_cons_self, hr⟩, fun b hb =>
      (ih b hb).imp fun a ha => ⟨List.mem_cons_of_mem _ ha.1, ha.2⟩⟩

theorem exists_right_of_mem_left {α β : Type} {R : α → β → Prop} {l : List α} {l' : List β}
    (h : List.Forall₂ R l l') : ∀ a ∈ l, ∃ b ∈ l', R a b :=
  exists_left_of_mem_right h.flip

/-- Either all items are as they should be, or there is a first one that is not. -/
theorem forall_or_exists_first {α : Type} (P : α → Prop) :
    ∀ l : List α, (∀ a ∈ l, P a)
      ∨ ∃ before a after, l = before ++ a :: after ∧ (∀ b ∈ before, P b) ∧ ¬ P a
  | [] => .inl (List.forall_mem_nil _)
  | a :: l => by
    by_cases ha : P a
    · rcases forall_or_exists_first P l with h | ⟨before, b, after, rfl, hbefore, hb⟩
      · exact .inl (List.forall_mem_cons.2 ⟨ha, h⟩)
      · exact .inr ⟨a :: before, b, after, rfl, List.forall_mem_cons.2 ⟨ha, hbefore⟩, hb⟩
    · exact .inr ⟨[], a, l, rfl, List.forall_mem_nil _, ha⟩

end ClockSynth
