/-!
# Sorting by rank

`Ranked.sort` puts a list in ascending order of a natural number that each item has. It keeps all
items (`sort_perm`), its result ascends (`pairwise_sort`), and items of one rank stay in the order in
which they came (`filter_sort`).
-/

namespace ClockSynth.Ranked

variable {α : Type} (rank : α → Nat)

/-- Puts an item in front of the first one that does not rank below it. -/
def insert (a : α) : List α → List α
  | [] => [a]
  | b :: l => if rank a ≤ rank b then a :: b :: l else b :: insert a l

def sort : List α → List α
  | [] => []
  | a :: l => insert rank a (sort l)

theorem insert_perm (a : α) : ∀ l, (insert rank a l).Perm (a :: l)
  | [] => .refl _
  | b :: l => by
    unfold insert
    split
    · exact .refl _
    · exact ((insert_perm a l).cons b).trans (.swap a b l)

theorem sort_perm : ∀ l, (sort rank l).Perm l
  | [] => .refl _
  | a :: l => (insert_perm rank a (sort rank l)).trans ((sort_perm l).cons a)

theorem mem_sort {a : α} {l : List α} : a ∈ sort rank l ↔ a ∈ l :=
  (sort_perm rank l).mem_iff

theorem pairwise_insert (a : α) : ∀ {l : List α}, l.Pairwise (rank · ≤ rank ·) →
    (insert rank a l).Pairwise (rank · ≤ rank ·)
  | [], _ => List.pairwise_singleton _ _
  | b :: l, h => by
    obtain ⟨hb, hl⟩ := List.pairwise_cons.1 h
    unfold insert
    split
    · rename_i hab
      refine List.pairwise_cons.2 ⟨fun c hc => ?_, h⟩
      rcases List.mem_cons.1 hc with rfl | hc
      · exact hab
      · exact Nat.le_trans hab (hb c hc)
    · rename_i hab
      refine List.pairwise_cons.2 ⟨fun c hc => ?_, pairwise_insert a hl⟩
      rcases List.mem_cons.1 ((insert_perm rank a l).mem_iff.1 hc) with rfl | hc
      · omega
      · exact hb c hc

/-- A sorted list ascends. -/
theorem pairwise_sort : ∀ l, (sort rank l).Pairwise (rank · ≤ rank ·)
  | [] => .nil
  | a :: l => pairwise_insert rank a (pairwise_sort l)

theorem filter_insert (n : Nat) (a : α) : ∀ l,
    (insert rank a l).filter (rank · == n) = (a :: l).filter (rank · == n)
  | [] => rfl
  | b :: l => by
    unfold insert
    split
    · rfl
    · rename_i hab
      have ih := filter_insert n a l
      simp only [List.filter_cons] at ih ⊢
      rw [ih]
      by_cases ha : rank a = n <;> by_cases hb : rank b = n
      · omega
      · simp [ha, hb]
      · simp [ha, hb]
      · simp [ha, hb]

/-- Items of one rank keep their order. -/
theorem filter_sort (n : Nat) : ∀ l,
    (sort rank l).filter (rank · == n) = l.filter (rank · == n)
  | [] => rfl
  | a :: l => by
    rw [sort, filter_insert, List.filter_cons, List.filter_cons, filter_sort n l]

end ClockSynth.Ranked
