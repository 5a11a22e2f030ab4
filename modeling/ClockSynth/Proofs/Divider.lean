import ClockSynth.Divider
import ClockSynth.Proofs.Number.Natural
import Mathlib.Data.List.Nodup

/-!
# Counting dividers

`Ends r l` says that the count of a range comes to its end, and over which dividers. Such a count
meets no double twice, so the steps that `values` allows suffice for it, and `values` is the count
(`values_eq`). Between integers that doubles hold exactly, a count ends, and it passes each integer
once (`Spans.exists_ends`).
-/

namespace ClockSynth.DividerRange

/-- The count from `d` ends, and `l` is what it passes below `high`. -/
inductive Counts (high : Float) : Float → List Float → Prop
  | stop {d : Float} : ¬ d < high → Counts high d []
  | step {d : Float} {l : List Float} : d < high → Counts high (d + 1) l → Counts high d (d :: l)

/-- The range can be counted to its end, and `l` are its dividers. -/
def Ends (r : DividerRange) (l : List Float) : Prop :=
  Counts r.high r.low l

section Steps

variable {high d : Float} {l : List Float}

theorem Counts.unique {l' : List Float} (h : Counts high d l) (h' : Counts high d l') :
    l = l' := by
  induction h generalizing l' with
  | stop hd =>
    cases h' with
    | stop _ => rfl
    | step hd' _ => exact absurd hd' hd
  | step hd _ ih =>
    cases h' with
    | stop hd' => exact absurd hd hd'
    | step _ h' => rw [ih h']

/-- From each of its dividers a count goes on in one way. -/
theorem Counts.from_mem (h : Counts high d l) {x : Float} (hx : x ∈ l) :
    ∃ t, Counts high x (x :: t) ∧ (x :: t).length ≤ l.length := by
  induction h with
  | stop _ => cases hx
  | @step d l hd hl ih =>
    rcases List.mem_cons.1 hx with rfl | hx
    · exact ⟨l, .step hd hl, le_rfl⟩
    · obtain ⟨t, ht, hle⟩ := ih hx
      exact ⟨t, ht, hle.trans (Nat.le_succ _)⟩

/-- A count that came back to a divider would never end. -/
theorem Counts.nodup (h : Counts high d l) : l.Nodup := by
  induction h with
  | stop _ => exact List.nodup_nil
  | @step d l hd hl ih =>
    refine List.nodup_cons.2 ⟨fun hmem => ?_, ih⟩
    obtain ⟨t, ht, hle⟩ := hl.from_mem hmem
    rw [← (Counts.step hd hl).unique ht] at hle
    simp at hle

theorem toBits_injective : Function.Injective fun x : Float => x.toBits.toNat := by
  rintro ⟨⟨x, _⟩⟩ ⟨⟨y, _⟩⟩ h
  obtain rfl : x = y := UInt64.toNat_inj.1 h
  rfl

theorem length_le_steps (h : l.Nodup) : l.length ≤ steps := by
  have hnodup := h.map toBits_injective
  have hsub : l.map (fun x : Float => x.toBits.toNat) ⊆ List.range steps := by
    intro n hn
    obtain ⟨x, -, rfl⟩ := List.mem_map.1 hn
    exact List.mem_range.2 x.toBits.toNat_lt
  simpa using (hnodup.subperm hsub).length_le

theorem Counts.countFrom_eq (h : Counts high d l) {n : ℕ} (hn : l.length ≤ n) :
    countFrom high n d = l := by
  induction h generalizing n with
  | stop hd =>
    cases n with
    | zero => rfl
    | succ n => rw [countFrom, if_neg hd]
  | step hd _ ih =>
    cases n with
    | zero => cases hn
    | succ n => rw [countFrom, if_pos hd, ih (Nat.le_of_succ_le_succ hn)]

/-- A count that stops before its steps run out has come to its end. -/
theorem counts_countFrom {high : Float} :
    ∀ (n : ℕ) (d : Float), (countFrom high n d).length < n → Counts high d (countFrom high n d)
  | 0, _, h => by cases h
  | n + 1, d, h => by
    unfold countFrom at h ⊢
    split_ifs at h ⊢ with hd
    · exact .step hd (counts_countFrom n (d + 1) (Nat.lt_of_succ_lt_succ h))
    · exact .stop hd

theorem ends_of_countFrom {r : DividerRange} (n : ℕ) {l : List Float}
    (h : countFrom r.high n r.low = l) (hn : l.length < n) : r.Ends l := by
  subst h
  exact counts_countFrom n r.low hn

/-- Where the count ends, `values` is the whole of it. -/
theorem values_eq {r : DividerRange} (h : r.Ends l) : r.values = l :=
  h.countFrom_eq (length_le_steps h.nodup)

end Steps

section Integers

open Number

variable {r : DividerRange} {a b : ℤ} {m n : ℕ} {high : Float}

/-- Between integers the count passes each integer once, in order, by induction on how many there
are. -/
theorem exists_counts (hh : high.isFinite = true) (hhv : value high = b) (hb : |b| ≤ 2 ^ 53) :
    ∀ (n : ℕ) {a : ℤ} {d : Float}, d.isFinite = true → value d = a → |a| ≤ 2 ^ 53 →
      (b - a).toNat = n → ∃ l, Counts high d l ∧ (∀ x ∈ l, x.isFinite = true)
        ∧ l.map value = (List.range n).map fun i : ℕ => ((a + i : ℤ) : ℚ)
  | 0, a, d, hd, hv, _, hn => by
    refine ⟨[], .stop ?_, by simp, rfl⟩
    rw [lt_iff_value hd hh, hv, hhv, Int.cast_lt]
    omega
  | n + 1, a, d, hd, hv, ha, hn => by
    have hlt : d < high := by
      rw [lt_iff_value hd hh, hv, hhv, Int.cast_lt]
      omega
    have ha1 : |a + 1| ≤ 2 ^ 53 := by
      rw [abs_le] at ha hb ⊢
      omega
    obtain ⟨hf, hv1⟩ := value_add_one hd hv ha1
    obtain ⟨l, hl, hfin, hmap⟩ := exists_counts hh hhv hb n hf hv1 ha1 (by omega)
    refine ⟨d :: l, .step hlt hl, ?_, ?_⟩
    · intro x hx
      rcases List.mem_cons.1 hx with rfl | hx
      exacts [hd, hfin x hx]
    · rw [List.map_cons, hmap, List.range_succ_eq_map, List.map_cons, List.map_map, hv]
      refine congrArg₂ List.cons (by simp) (List.map_congr_left fun i _ => ?_)
      rw [Function.comp_apply, Nat.cast_succ]
      congr 1
      ring

/-- The bounds of the range are the integers `a` and `b`, neither beyond `2 ^ 53`. -/
structure Spans (r : DividerRange) (a b : ℤ) : Prop where
  low : r.low.isFinite = true ∧ value r.low = a
  high : r.high.isFinite = true ∧ value r.high = b
  low_le : |a| ≤ 2 ^ 53
  high_le : |b| ≤ 2 ^ 53

/-- A range between integers ends, and its dividers are the integers from `a` up to `b`. -/
theorem Spans.exists_ends (h : r.Spans a b) :
    ∃ l, r.Ends l ∧ (∀ x ∈ l, x.isFinite = true)
      ∧ l.map value = (List.range (b - a).toNat).map fun i : ℕ => ((a + i : ℤ) : ℚ) :=
  exists_counts h.high.1 h.high.2 h.high_le _ h.low.1 h.low.2 h.low_le rfl

theorem spans_toFloat (hm : m ≤ 2 ^ 53) (hn : n ≤ 2 ^ 53) :
    (DividerRange.mk m.toFloat n.toFloat).Spans m n where
  low := by simpa using value_toFloat hm
  high := by simpa using value_toFloat hn
  low_le := by rw [Nat.abs_cast]; exact_mod_cast hm
  high_le := by rw [Nat.abs_cast]; exact_mod_cast hn

/-- The dividers from 1 up to a natural bound. -/
theorem exists_ends_natural (hn : n + 1 ≤ 2 ^ 53) :
    ∃ l, (DividerRange.mk 1 (n + 1).toFloat).Ends l ∧ l.length = n
      ∧ ∀ x ∈ l, ∃ k, 1 ≤ k ∧ k ≤ n ∧ toNat? x = some k := by
  obtain ⟨l, hends, hfin, hmap⟩ := (@spans_toFloat 1 (n + 1) (by norm_num) hn).exists_ends
  have hcount : (((n + 1 : ℕ) : ℤ) - (1 : ℕ)).toNat = n := by omega
  rw [hcount] at hmap
  refine ⟨l, hends, ?_, ?_⟩
  · simpa using congrArg List.length hmap
  · intro x hx
    have hmem := List.mem_map_of_mem (f := value) hx
    rw [hmap] at hmem
    obtain ⟨i, hi, hxi⟩ := List.mem_map.1 hmem
    refine ⟨1 + i, by omega, by have := List.mem_range.1 hi; omega, ?_⟩
    rw [toNat?_eq_some_iff (hfin x hx), ← hxi]
    push_cast
    rfl

/-- Both bounds are integers between `-2 ^ 53` and `2 ^ 53`. -/
structure Integral (r : DividerRange) : Prop where
  low : r.low.isFinite = true ∧ ∃ a : ℤ, |a| ≤ 2 ^ 53 ∧ value r.low = a
  high : r.high.isFinite = true ∧ ∃ b : ℤ, |b| ≤ 2 ^ 53 ∧ value r.high = b

theorem Spans.integral (h : r.Spans a b) : r.Integral where
  low := ⟨h.low.1, a, h.low_le, h.low.2⟩
  high := ⟨h.high.1, b, h.high_le, h.high.2⟩

theorem Integral.exists_spans (h : r.Integral) : ∃ a b, r.Spans a b := by
  obtain ⟨hl, a, ha, hlv⟩ := h.low
  obtain ⟨hh, b, hb, hhv⟩ := h.high
  exact ⟨a, b, ⟨hl, hlv⟩, ⟨hh, hhv⟩, ha, hb⟩

theorem integral_toFloat (hm : m ≤ 2 ^ 53) (hn : n ≤ 2 ^ 53) :
    (DividerRange.mk m.toFloat n.toFloat).Integral :=
  (spans_toFloat hm hn).integral

theorem Integral.isFinite (h : r.Integral) {x : Float} (hx : x ∈ r.values) :
    x.isFinite = true := by
  obtain ⟨a, b, hspans⟩ := h.exists_spans
  obtain ⟨l, hends, hfin, -⟩ := hspans.exists_ends
  rw [values_eq hends] at hx
  exact hfin x hx

end Integers

end ClockSynth.DividerRange
