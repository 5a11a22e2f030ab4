import ClockSynth.Proofs.Cap
import ClockSynth.Proofs.Number.Error
import ClockSynth.Proofs.Solution

/-!
# The divider of the phantom

The phantom's divider is cut from a quotient that would be the fed back divider if nothing were
rounded. On the way to it six roundings happen, so the quotient comes out a little above or a little
below, and the divider is the fed back one or one less (`phantomDivider_cases`). On the ECP5
primitive all dividers are therefore from 1 to 128 and all frequencies finite, unless a phantom
feeds back the divider 1 and its quotient falls short (`bounded_iff`).
-/

namespace ClockSynth

open Number

section Naturals

variable {x y : Float} {n : ℕ}

theorem near_of_toNat? (h : toNat? x = some n) : Near 0 n x := by
  obtain ⟨hf, hv⟩ := value_of_toNat? h
  rw [← hv]
  exact near_zero hf

/-- A frequency between natural bounds stands between them up to its rounding. -/
theorem bounds_of_div {m k : ℕ} (hm : m ≤ 2 ^ 53) (hk : k ≤ 2 ^ 53) (hy : toNat? y = some n)
    (hn : 0 < n) (h1 : m.toFloat ≤ x / y) (h2 : x / y ≤ k.toFloat) :
    x.isFinite = true ∧ (x / y).isFinite = true ∧ (m : ℚ) ≤ nearest (value x / n)
      ∧ nearest (value x / n) ≤ k := by
  obtain ⟨hmf, hmv⟩ := value_toFloat hm
  obtain ⟨hkf, hkv⟩ := value_toFloat hk
  obtain ⟨hyf, hyv⟩ := value_of_toNat? hy
  have hf := isFinite_of_le_of_le hmf hkf h1 h2
  have hxf := isFinite_of_div hf hyf
  have hr := roundsTo_div hxf hyf (by rw [hyv]; exact_mod_cast hn.ne')
  have hv := hr.value_eq hf
  rw [hyv] at hv
  rw [le_iff_value hmf hf, hmv, hv] at h1
  rw [le_iff_value hf hkf, hkv, hv] at h2
  exact ⟨hxf, hf, h1, h2⟩

theorem natCast_le_of_le_nearest {q : ℚ} {m : ℕ} (hm : m ≤ 2 ^ 53) (h : (m : ℚ) + 1 ≤ nearest q) :
    (m : ℚ) ≤ q := by
  by_contra hc
  have := nearest_le_of_isDouble (isDouble_natCast hm) (not_le.1 hc).le
  linarith

theorem le_natCast_of_nearest_lt {q : ℚ} {m : ℕ} (hm : m ≤ 2 ^ 53) (h : nearest q < m) : q ≤ m := by
  by_contra hc
  have := le_nearest_of_isDouble (isDouble_natCast hm) (not_le.1 hc).le
  linarith

end Naturals

section Loop

/-- A feedback loop with natural dividers and an input that is neither tiny nor huge. -/
structure Loop (f : Float) (d : Dividers) (i o b : ℕ) : Prop where
  input : toNat? d.input = some i
  output : toNat? d.output = some o
  feedback : toNat? d.feedback = some b
  input_pos : 0 < i
  output_pos : 0 < o
  feedback_pos : 0 < b
  input_le : i ≤ 2 ^ 16
  output_le : o ≤ 2 ^ 16
  feedback_le : b ≤ 2 ^ 16
  finite : f.isFinite = true
  one_le : 1 ≤ value f / i
  le : value f / i ≤ 2 ^ 40

variable {f : Float} {d : Dividers} {i o b : ℕ}

theorem Loop.near_vco (h : Loop f d i o b) :
    Near 3 (value f / i * b * o) (f / d.input * d.feedback * d.output) := by
  have hi : (0 : ℚ) < i := by exact_mod_cast h.input_pos
  have ho : (1 : ℚ) ≤ o := by exact_mod_cast h.output_pos
  have hb : (1 : ℚ) ≤ b := by exact_mod_cast h.feedback_pos
  have ho' : (o : ℚ) ≤ 2 ^ 16 := by exact_mod_cast h.output_le
  have hb' : (b : ℚ) ≤ 2 ^ 16 := by exact_mod_cast h.feedback_le
  have h1 := h.one_le
  have h2 := h.le
  have hf : 0 < value f := by
    rw [le_div_iff₀ hi] at h1
    linarith
  have hpfd := (near_zero h.finite).div (near_of_toNat? h.input) hf hi h1 (by linarith) (by norm_num)
  have hq : value f / i * b ≤ 2 ^ 56 := by nlinarith
  have hq1 : 1 ≤ value f / i * b := by nlinarith
  have hfb := hpfd.mul (near_of_toNat? h.feedback) (by linarith) (by linarith) hq1 (by linarith)
    (by norm_num)
  exact hfb.mul (near_of_toNat? h.output) (by linarith) (by linarith) (by nlinarith) (by nlinarith)
    (by norm_num)

/-- The quotient that the phantom's divider is cut from is the fed back divider up to roundings. -/
theorem Loop.near_quotient (h : Loop f d i o b) :
    Near 6 o (f / d.input * d.feedback * d.output * d.input / (f * d.feedback)) := by
  have hi : (1 : ℚ) ≤ i := by exact_mod_cast h.input_pos
  have ho : (1 : ℚ) ≤ o := by exact_mod_cast h.output_pos
  have hb : (1 : ℚ) ≤ b := by exact_mod_cast h.feedback_pos
  have hi' : (i : ℚ) ≤ 2 ^ 16 := by exact_mod_cast h.input_le
  have ho' : (o : ℚ) ≤ 2 ^ 16 := by exact_mod_cast h.output_le
  have hb' : (b : ℚ) ≤ 2 ^ 16 := by exact_mod_cast h.feedback_le
  have h1 := h.one_le
  have h2 := h.le
  rw [le_div_iff₀ (by linarith)] at h1
  rw [div_le_iff₀ (by linarith)] at h2
  have hf : 1 ≤ value f := by linarith
  have hf' : value f ≤ 2 ^ 56 := by linarith
  have hfb1 : 1 ≤ value f * b := by nlinarith
  have hfb2 : value f * b ≤ 2 ^ 72 := by nlinarith
  have hvco : value f / i * b * o * i = value f * b * o := by field_simp
  have hnum := h.near_vco.mul (near_of_toNat? h.input) (by positivity) (by linarith)
    (by rw [hvco]; nlinarith) (by rw [hvco]; nlinarith) (by norm_num)
  have hden := (near_zero h.finite).mul (near_of_toNat? h.feedback) (by linarith) (by linarith) hfb1
    (by linarith) (by norm_num)
  have hratio : value f * b * o / (value f * b) = o := by field_simp
  rw [hvco] at hnum
  have hq := hnum.div hden (by positivity) (by linarith) (by rw [hratio]; exact ho)
    (by rw [hratio]; linarith) (by norm_num)
  rwa [hratio] at hq

/-- The phantom's divider is the fed back divider, or one less if the quotient falls short. -/
theorem phantomDivider_cases (h : Loop f d i o b) :
    let quotient := f / d.input * d.feedback * d.output * d.input / (f * d.feedback)
    toNat? (trunc quotient) = some (if quotient < d.output then o - 1 else o) := by
  intro quotient
  obtain ⟨hfin, hle, hge⟩ := h.near_quotient
  change quotient.isFinite = true at hfin
  change value quotient ≤ _ at hle
  change _ ≤ value quotient * _ at hge
  have ho : (1 : ℚ) ≤ o := by exact_mod_cast h.output_pos
  have ho' : (o : ℚ) ≤ 2 ^ 16 := by exact_mod_cast h.output_le
  have hslack : slack ^ 6 ≤ 1 + 1 / 2 ^ 44 := slack_pow_le (by norm_num)
  have hs := slack_pow_pos 6
  have hlt : value quotient < o + 1 := by nlinarith
  have hgt : (o : ℚ) - 1 < value quotient := by nlinarith
  obtain ⟨hof, hov⟩ := value_of_toNat? h.output
  have hlt_iff : quotient < d.output ↔ value quotient < o := by rw [lt_iff_value hfin hof, hov]
  split_ifs with hshort <;> rw [hlt_iff] at hshort
  · have hsub : ((o - 1 : ℕ) : ℚ) = o - 1 := by rw [Nat.cast_sub h.output_pos, Nat.cast_one]
    exact toNat?_trunc hfin (hsub ▸ hgt.le) (by rw [hsub]; linarith)
  · exact toNat?_trunc hfin (not_lt.1 hshort) hlt

end Loop

section Ecp5

/-- A divider that the ECP5 primitive has. -/
def InRange (x : Float) : Prop :=
  ∃ n : ℕ, 1 ≤ n ∧ n ≤ 128 ∧ toNat? x = some n

/-- All dividers are ones that the primitive has, and all frequencies are finite. -/
structure Configuration.Bounded (c : Configuration) : Prop where
  inputDivider : InRange c.inputDivider
  feedbackDivider : InRange c.feedbackDivider
  feedbackOutputDivider : InRange c.feedbackOutputDivider
  outputs : ∀ o ∈ c.outputs, InRange o.divider
  frequencies : ∀ o ∈ c.outputs, o.frequency.isFinite = true

/-- A phantom feeds back the divider 1, and the quotient that its own is cut from falls short. -/
def Configuration.FallsShort (c : Configuration) : Prop :=
  c.hasPhantom = true ∧ (c.feedbackOutputDivider == 1) = true
    ∧ c.vcoFrequency * c.inputDivider / (c.inputFrequency * c.feedbackDivider) < 1

theorem inRange_of_mem_values {x : Float} (h : x ∈ (DividerRange.mk 1 129).values) : InRange x := by
  obtain ⟨l, hends, -, hl⟩ := @DividerRange.exists_ends_natural 128 (by norm_num)
  exact hl x (DividerRange.values_eq hends ▸ h)

variable {p : Problem} {d : Dividers} {c : Configuration}

theorem loop_of_mem_candidates (hp : p.family = Family.ecp5) (hd : d ∈ p.candidates) :
    ∃ i o b, i ≤ 128 ∧ o ≤ 128 ∧ b ≤ 128 ∧ Loop p.inputFrequency d i o b := by
  obtain ⟨hi, hpfd, ho, hb⟩ := Problem.mem_candidates_iff.1 hd
  rw [hp] at hi hpfd ho hb
  obtain ⟨i, hi1, hi2, hi⟩ := inRange_of_mem_values hi
  obtain ⟨o, ho1, ho2, ho⟩ := inRange_of_mem_values ho
  obtain ⟨b, hb1, hb2, hb⟩ := inRange_of_mem_values hb
  have hrange : Family.ecp5.limits.pfdFrequency
      = ⟨(10000000 : ℕ).toFloat, (400000000 : ℕ).toFloat⟩ := by decide +kernel
  rw [hrange, FrequencyRange.contains, Bool.and_eq_true, decide_eq_true_iff, decide_eq_true_iff]
    at hpfd
  obtain ⟨hf, -, h1, h2⟩ := bounds_of_div (by norm_num) (by norm_num) hi hi1 hpfd.1 hpfd.2
  have hlo := natCast_le_of_le_nearest (m := 1) (by norm_num) (h1.trans' (by norm_num))
  have hhi := le_natCast_of_nearest_lt (m := 2 ^ 40) (by norm_num) (h2.trans_lt (by norm_num))
  exact ⟨i, o, b, hi2, ho2, hb2, hi, ho, hb, hi1, ho1, hb1, by omega, by omega, by omega, hf,
    by exact_mod_cast hlo, by exact_mod_cast hhi⟩

theorem value_of_contains {vco : Float}
    (h : Family.ecp5.limits.vcoFrequency.contains vco = true) :
    vco.isFinite = true ∧ 400000000 ≤ value vco ∧ value vco ≤ 800000000 := by
  have hrange : Family.ecp5.limits.vcoFrequency
      = ⟨(400000000 : ℕ).toFloat, (800000000 : ℕ).toFloat⟩ := by decide +kernel
  rw [hrange, FrequencyRange.contains, Bool.and_eq_true, decide_eq_true_iff, decide_eq_true_iff] at h
  obtain ⟨hlf, hlv⟩ := @value_toFloat 400000000 (by norm_num)
  obtain ⟨huf, huv⟩ := @value_toFloat 800000000 (by norm_num)
  have hf := isFinite_of_le_of_le hlf huf h.1 h.2
  have hlo := (le_iff_value hlf hf).1 h.1
  have hhi := (le_iff_value hf huf).1 h.2
  rw [hlv] at hlo
  rw [huv] at hhi
  exact ⟨hf, by exact_mod_cast hlo, by exact_mod_cast hhi⟩

/-- At a VCO in range, every divider of the primitive gives a finite frequency. -/
theorem isFinite_of_inRange {vco x : Float}
    (hvco : Family.ecp5.limits.vcoFrequency.contains vco = true) (hx : InRange x) :
    (vco / x).isFinite = true := by
  obtain ⟨n, h1, h2, hn⟩ := hx
  obtain ⟨hf, hlo, hhi⟩ := value_of_contains hvco
  have hn1 : (1 : ℚ) ≤ n := by exact_mod_cast h1
  have hn2 : (n : ℚ) ≤ 128 := by exact_mod_cast h2
  refine ((near_zero hf).div (near_of_toNat? hn) (by linarith) (by linarith) ?_ ?_
    (by norm_num)).finite
  · rw [le_div_iff₀ (by linarith)]
    linarith
  · rw [div_le_iff₀ (by linarith)]
    nlinarith

theorem inRange_of_served {vco : Float} {requests : List Request} {outputs : List Output}
    (h : List.Forall₂ (fun r o => r.Served Family.ecp5.limits.outputDivider vco o)
      requests outputs) {o : Output} (ho : o ∈ outputs) :
    InRange o.divider ∧ o.frequency = vco / o.divider := by
  induction h with
  | nil => cases ho
  | cons hs _ ih =>
    rcases List.mem_cons.1 ho with rfl | ho
    · exact ⟨inRange_of_mem_values hs.firstFit.mem_values, hs.frequency⟩
    · exact ih ho

theorem inRange_of_toNat? {x : Float} {n : ℕ} (h : toNat? x = some n) (h1 : 1 ≤ n) (h2 : n ≤ 128) :
    InRange x :=
  ⟨n, h1, h2, h⟩

theorem inRange_phantomDivider_iff {f : Float} {i o b : ℕ} (h : Loop f d i o b) (ho : o ≤ 128) :
    InRange (phantomDivider (f / d.input * d.feedback * d.output) d.input f d.feedback)
      ↔ ¬ ((d.output == 1) = true
        ∧ f / d.input * d.feedback * d.output * d.input / (f * d.feedback) < 1) := by
  have hcases := phantomDivider_cases h
  simp only [] at hcases
  rw [beq_iff_of_toNat? h.output toNat?_one]
  unfold phantomDivider
  have hpos := h.output_pos
  by_cases ho1 : o = 1
  · subst ho1
    have hlt (x : Float) : x < d.output ↔ x < 1 := by
      rw [eq_of_toNat? h.output toNat?_one one_pos]
    split_ifs at hcases with hshort
    · refine iff_of_false ?_ (not_not.2 ⟨rfl, (hlt _).1 hshort⟩)
      rintro ⟨n, h1, -, hn⟩
      rw [hcases] at hn
      cases hn
      omega
    · exact iff_of_true (inRange_of_toNat? hcases le_rfl ho) fun hc => hshort ((hlt _).2 hc.2)
  · refine iff_of_true ?_ fun hc => ho1 hc.1
    split_ifs at hcases
    · exact inRange_of_toNat? hcases (by omega) (by omega)
    · exact inRange_of_toNat? hcases (by omega) ho

/-- On the ECP5 primitive a solution has dividers from 1 to 128 and finite frequencies, unless its
phantom falls short of the divider 1. -/
theorem bounded_iff (hp : p.family = Family.ecp5) {cap : Option Float} {t : Tally}
    (h : p.solve cap = .solved c t) : c.Bounded ↔ ¬ c.FallsShort := by
  obtain ⟨d, hd, he⟩ := Problem.exists_mem_candidates_of_solved h
  obtain ⟨i, o, b, hi, ho, hb, hloop⟩ := loop_of_mem_candidates hp hd
  obtain ⟨hvco, outputs, slot, more, hserved, hclose, rfl⟩ := Problem.evaluate_ok_iff.1 he
  rw [hp] at hvco hserved
  have hrange := fun x hx => @inRange_of_served _ _ _ hserved x hx
  have hany := any_phantom_of_served hserved
  have hloopRange : InRange d.input ∧ InRange d.feedback ∧ InRange d.output :=
    ⟨inRange_of_toNat? hloop.input hloop.input_pos hi,
      inRange_of_toNat? hloop.feedback hloop.feedback_pos hb,
      inRange_of_toNat? hloop.output hloop.output_pos ho⟩
  have hphantom := inRange_phantomDivider_iff hloop ho
  cases hclose with
  | request =>
    rw [List.append_nil]
    refine iff_of_true ?_ fun hc => ?_
    · refine ⟨hloopRange.1, hloopRange.2.1, hloopRange.2.2, fun x hx => (hrange x hx).1, ?_⟩
      intro x hx
      rw [(hrange x hx).2]
      exact isFinite_of_inRange hvco (hrange x hx).1
    · have := hc.1
      rw [Configuration.hasPhantom, Problem.configuration, hany] at this
      cases this
  | phantom =>
    have hshort : (p.configuration d slot (outputs ++ [p.phantom d])).FallsShort
        ↔ ((d.output == 1) = true ∧ p.vco d * d.input / (p.inputFrequency * d.feedback) < 1) := by
      refine and_iff_right ?_
      simp [Configuration.hasPhantom, Problem.configuration, Problem.phantom]
    rw [hshort]
    refine Iff.trans ⟨fun hc => hc.outputs (p.phantom d) ?_, fun hr => ?_⟩ hphantom
    · simp [Problem.configuration]
    · have hall : ∀ x ∈ outputs ++ [p.phantom d],
          InRange x.divider ∧ x.frequency = p.vco d / x.divider := by
        intro x hx
        rcases List.mem_append.1 hx with hx | hx
        · exact hrange x hx
        · rw [List.mem_singleton.1 hx]
          exact ⟨hr, rfl⟩
      refine ⟨hloopRange.1, hloopRange.2.1, hloopRange.2.2, fun x hx => (hall x hx).1, ?_⟩
      intro x hx
      rw [(hall x hx).2]
      exact isFinite_of_inRange hvco (hall x hx).1

/-- A request that needs no more than a spare output, and a phantom that gets the divider 1. -/
def Problem.idle : Problem where
  inputFrequency := 400e6
  requests := []
  dynamicPhase := false

def idleConfiguration : Configuration :=
  ⟨400e6, 1, 1, 1, 400e6, 0, [⟨0, 1, 400e6, 0, true⟩]⟩

theorem bounded_iff_idle :
    Problem.idle.family = Family.ecp5
      ∧ Problem.idle.solve (some 10) = .solved idleConfiguration ⟨1, 1, 0⟩
      ∧ (idleConfiguration.Bounded ↔ ¬ idleConfiguration.FallsShort) := by
  have h : Problem.idle.solve (some 10) = .solved idleConfiguration ⟨1, 1, 0⟩ := by decide +kernel
  exact ⟨rfl, h, bounded_iff rfl h⟩

end Ecp5

section Shortfall

/-- A request for half a VCO that only comes out of an input divided by three. -/
def Problem.shortfall : Problem where
  inputFrequency := 250e6
  requests := [⟨0, "core", 291666667, 0, 1e-6, true, false⟩]
  dynamicPhase := false

/-- A divider that meets a request brings the output within the tolerance, cut to a natural. -/
theorem Request.Meets.abs_sub_le {r : Request} {vco d : Float} {m : ℕ} (h : r.Meets vco d)
    (hq : (vco / d).isFinite = true) (hq2 : |value (vco / d)| ≤ 2 ^ 90)
    (hr : r.frequency.isFinite = true) (hr2 : |value r.frequency| ≤ 2 ^ 90)
    (ht : (r.frequency * r.margin).isFinite = true) (hm : m ≤ 2 ^ 53)
    (htm : value (r.frequency * r.margin) < m) :
    |value (vco / d) - value r.frequency| ≤ m := by
  have hsub := abs_sub (value (vco / d)) (value r.frequency)
  obtain ⟨hsf, hsv⟩ := (roundsTo_sub hq hr).finite_of_abs_le (by linarith)
  obtain ⟨haf, hav⟩ := value_abs hsf
  have hlt := ((le_iff_value haf ht).1 h).trans_lt htm
  rw [hav, hsv, abs_lt] at hlt
  refine abs_le.2 ⟨neg_le.1 (le_natCast_of_nearest_lt hm ?_), le_natCast_of_nearest_lt hm hlt.2⟩
  rw [nearest_neg]
  exact neg_lt.1 hlt.1

/-- At a VCO in range, what the dividers give without rounding is near the range, and over the
divider of a request it is near the request's frequency. -/
theorem exact_near {f : Float} {d : Dividers} {i o b : ℕ} (h : Loop f d i o b)
    (hvco : Family.ecp5.limits.vcoFrequency.contains (f / d.input * d.feedback * d.output) = true)
    {r : Request} {x : Float} {m : ℕ} (hx : InRange x)
    (hmeets : r.Meets (f / d.input * d.feedback * d.output) x) (hr : r.frequency.isFinite = true)
    (hr2 : |value r.frequency| ≤ 2 ^ 90) (ht : (r.frequency * r.margin).isFinite = true)
    (hm : m ≤ 2 ^ 53) (htm : value (r.frequency * r.margin) < m) :
    |value f / i * b * o - 600000000| ≤ 200000001
      ∧ ∃ n : ℕ, 0 < n ∧ |value f / i * b * o / n - value r.frequency| ≤ m + 1 := by
  obtain ⟨n, hn1, hn2, hn⟩ := hx
  obtain ⟨-, hlo, hhi⟩ := value_of_contains hvco
  have hvn := h.near_vco
  have hq0 : 0 < value f / i * b * o :=
    pos_of_mul_pos_left ((by linarith : (0 : ℚ) < _).trans_le hvn.le) (slack_pow_pos 3).le
  set vco := f / d.input * d.feedback * d.output
  set q := value f / i * b * o
  obtain ⟨hq1, hq2⟩ := abs_le.1 (hvn.abs_sub_le_one (by norm_num) hq0 (by linarith))
  have hn1' : (1 : ℚ) ≤ n := by exact_mod_cast hn1
  have hn2' : (n : ℚ) ≤ 128 := by exact_mod_cast hn2
  have hqn1 : 1 ≤ q / n := by
    rw [le_div_iff₀ (by linarith)]
    linarith
  have hqn2 : q / n ≤ 800000001 := by
    rw [div_le_iff₀ (by linarith)]
    nlinarith
  have hwn := hvn.div (near_of_toNat? hn) hq0 (by linarith) hqn1 (by linarith) (by norm_num)
  have hw0 := hwn.pos (by linarith)
  have hw1 : value (vco / x) ≤ 2 ^ 32 := by
    have := hwn.le
    have : slack ^ 4 ≤ 2 := slack_pow_le_two (by norm_num)
    nlinarith
  have hw2 := hmeets.abs_sub_le hwn.finite (by rw [abs_of_pos hw0]; linarith) hr hr2 ht hm htm
  have hw3 := abs_le.1 (hwn.abs_sub_le_one (by norm_num) (by linarith) (by linarith))
  rw [abs_le] at hw2
  refine ⟨abs_le.2 ⟨by linarith, by linarith⟩, n, hn1, abs_le.2 ⟨?_, ?_⟩⟩ <;> linarith

/-- An output near half of seven thirds of the input, at a VCO in range, is just that. -/
theorem three_mul_eq {i o b n : ℕ} {q : ℚ} (hi : 0 < i) (hi' : i ≤ 128) (hn : 0 < n)
    (hq : q = 250000000 / i * b * o) (h1 : |q - 600000000| ≤ 200000001)
    (h2 : |q / n - 291666667| ≤ 293) : 3 * (o * b) = 7 * i := by
  have hi0 : (0 : ℚ) < i := by exact_mod_cast hi
  have hi1 : (i : ℚ) ≤ 128 := by exact_mod_cast hi'
  have hn0 : (0 : ℚ) < n := by exact_mod_cast hn
  obtain ⟨h1, h1'⟩ := abs_le.1 h1
  obtain ⟨h2, h2'⟩ := abs_le.1 h2
  have h3 : 291666374 * (n : ℚ) ≤ q := (le_div_iff₀ hn0).1 (by linarith)
  have h4 : q ≤ 291666960 * n := (div_le_iff₀ hn0).1 (by linarith)
  have hn1 : 1 < n := by
    have : (1 : ℚ) < n := by linarith
    exact_mod_cast this
  have hn2 : n < 3 := by
    have : (n : ℚ) < 3 := by linarith
    exact_mod_cast this
  obtain rfl : n = 2 := by omega
  have hmul : q * i = 250000000 * (o * b) := by
    rw [hq]
    field_simp
  push_cast at h3 h4
  have hlo : (-1 : ℚ) < 3 * (o * b) - 7 * i := by nlinarith
  have hhi : (3 * (o * b) - 7 * i : ℚ) < 1 := by nlinarith
  have hlo' : (-1 : ℤ) < 3 * (o * b) - 7 * i := by exact_mod_cast hlo
  have hhi' : (3 * (o * b) - 7 * i : ℤ) < 1 := by exact_mod_cast hhi
  have : (3 * (o * b) : ℤ) = 7 * i := by omega
  exact_mod_cast this

namespace Problem

theorem shortfall_valid {d : Dividers} (hd : d ∈ shortfall.candidates) (hv : shortfall.Valid d) :
    ∃ i o b, toNat? d.input = some i ∧ toNat? d.output = some o ∧ toNat? d.feedback = some b
      ∧ 3 * (o * b) = 7 * i := by
  obtain ⟨i, o, b, hi, -, -, hloop⟩ := loop_of_mem_candidates rfl hd
  refine ⟨i, o, b, hloop.input, hloop.output, hloop.feedback, ?_⟩
  obtain ⟨c, hc⟩ := hv
  obtain ⟨hvco, outputs, slot, more, hserved, -, -⟩ := evaluate_ok_iff.1 hc
  cases hserved with
  | @cons r out _ _ hs _ =>
    obtain ⟨before, after, -, hmeets, -⟩ := hs.firstFit
    obtain ⟨hff, hfv⟩ := @value_toFloat 250000000 (by norm_num)
    obtain ⟨hrf, hrv⟩ := @value_toFloat 291666667 (by norm_num)
    obtain ⟨hmf, hmv⟩ := @value_toFloat 292 (by norm_num)
    have hf : shortfall.inputFrequency = (250000000 : ℕ).toFloat := by decide +kernel
    have htf : (291666667 * 1e-6 : Float).isFinite = true := by decide +kernel
    have htm : (291666667 * 1e-6 : Float) < (292 : ℕ).toFloat := by decide +kernel
    rw [lt_iff_value htf hmf, hmv] at htm
    have hr2 : |value (291666667 : ℕ).toFloat| ≤ 2 ^ 90 := by
      rw [hrv]
      norm_num
    obtain ⟨h1, n, hn, h2⟩ := exact_near hloop hvco (inRange_of_mem_values hs.firstFit.mem_values)
      hmeets hrf hr2 htf (by norm_num) htm
    change |_ - value (291666667 : ℕ).toFloat| ≤ _ at h2
    rw [hf, hfv] at h1 h2
    rw [hrv] at h2
    refine three_mul_eq hloop.input_pos hi hn rfl (by exact_mod_cast h1) ?_
    push_cast at h2
    linarith

/-- What is tried before the input is divided by three and fed back by seven. -/
theorem shortfall_candidates :
    ∃ before after, shortfall.candidates = before ++ ⟨3, 1, 7⟩ :: after
      ∧ ∀ x ∈ before, x.input = 1 ∨ x.input = 2
        ∨ x.input = 3 ∧ x.output = 1 ∧ x.feedback ∈ [1, 2, 3, 4, 5, 6] := by
  have hvalues : ∃ rest, (DividerRange.mk 1 129).values = [1, 2, 3, 4, 5, 6, 7] ++ rest := by
    have h : (DividerRange.mk 1 129).values.take 7 = [1, 2, 3, 4, 5, 6, 7] := by decide +kernel
    exact ⟨_, by rw [← h, List.take_append_drop]⟩
  obtain ⟨rest, hvalues⟩ := hvalues
  have hinputs : shortfall.inputDividers = 1 :: 2 :: 3 :: shortfall.inputDividers.drop 3 := by
    have h : shortfall.inputDividers.take 3 = [1, 2, 3] := by decide +kernel
    rw [← List.take_append_drop 3 shortfall.inputDividers, h]
    rfl
  have hrange : shortfall.family.limits.outputDivider.values = [1, 2, 3, 4, 5, 6, 7] ++ rest
      ∧ shortfall.family.limits.feedbackDivider.values = [1, 2, 3, 4, 5, 6, 7] ++ rest :=
    ⟨hvalues, hvalues⟩
  unfold candidates
  rw [hinputs, hrange.1, hrange.2]
  set block : Float → List Dividers := fun input => ([1, 2, 3, 4, 5, 6, 7] ++ rest).flatMap
    fun output => ([1, 2, 3, 4, 5, 6, 7] ++ rest).map fun feedback => ⟨input, output, feedback⟩
    with hblock
  have hmem : ∀ {input x}, x ∈ block input → x.input = input := by
    intro input x hx
    simp only [hblock, List.mem_flatMap, List.mem_map] at hx
    obtain ⟨_, _, _, _, rfl⟩ := hx
    rfl
  refine ⟨block 1 ++ block 2 ++ [1, 2, 3, 4, 5, 6].map fun feedback => ⟨3, 1, feedback⟩,
    rest.map (fun feedback => ⟨3, 1, feedback⟩) ++ ([2, 3, 4, 5, 6, 7] ++ rest).flatMap
      (fun output => ([1, 2, 3, 4, 5, 6, 7] ++ rest).map fun feedback => ⟨3, output, feedback⟩)
      ++ (shortfall.inputDividers.drop 3).flatMap block, ?_, ?_⟩
  · have h3 : block 3 = [1, 2, 3, 4, 5, 6].map (fun feedback => ⟨3, 1, feedback⟩)
        ++ ⟨3, 1, 7⟩ :: (rest.map (fun feedback => ⟨3, 1, feedback⟩)
          ++ ([2, 3, 4, 5, 6, 7] ++ rest).flatMap fun output =>
            ([1, 2, 3, 4, 5, 6, 7] ++ rest).map fun feedback => ⟨3, output, feedback⟩) := by
      simp [hblock]
    rw [List.flatMap_cons, List.flatMap_cons, List.flatMap_cons, h3]
    simp only [List.append_assoc, List.cons_append]
  · intro x hx
    rcases List.mem_append.1 hx with hx | hx
    · exact (List.mem_append.1 hx).imp hmem fun hx => .inl (hmem hx)
    · obtain ⟨b, hb, rfl⟩ := List.mem_map.1 hx
      exact .inr (.inr ⟨rfl, rfl, hb⟩)

/-- The configuration of a phantom that is not driven. -/
def shortfallConfiguration : Configuration :=
  { inputFrequency := 250e6
    inputDivider := 3
    feedbackDivider := 7
    feedbackOutputDivider := 1
    vcoFrequency := 250e6 / 3 * 7
    feedbackSlot := 1
    outputs := [⟨0, 2, 250e6 / 3 * 7 / 2, 0, false⟩, ⟨1, 0, 250e6 / 3 * 7 / 0, 0, true⟩] }

theorem shortfall_not_valid {x : Dividers} (hx : x ∈ shortfall.candidates)
    (h : x.input = 1 ∨ x.input = 2
      ∨ x.input = 3 ∧ x.output = 1 ∧ x.feedback ∈ [1, 2, 3, 4, 5, 6]) : ¬ shortfall.Valid x := by
  intro hv
  obtain ⟨i, o, b, hi, ho, hb, heq⟩ := shortfall_valid hx hv
  have hnat (n : ℕ) (hn : n ≤ 2 ^ 53) : toNat? n.toFloat = some n := toNat?_toFloat hn
  rcases h with h | h | ⟨h, h1, hmem⟩ <;> rw [h] at hi
  · cases (hnat 1 (by norm_num)).symm.trans hi
    omega
  · cases (hnat 2 (by norm_num)).symm.trans hi
    omega
  · have hsmall : ∀ y ∈ ([1, 2, 3, 4, 5, 6] : List Float), (toNat? y).any (· ≤ 6) = true := by
      decide +kernel
    have hb6 := hsmall _ hmem
    rw [hb, Option.any_some, decide_eq_true_iff] at hb6
    rw [h1] at ho
    cases (hnat 3 (by norm_num)).symm.trans hi
    cases (hnat 1 (by norm_num)).symm.trans ho
    omega

theorem solve_shortfall : ∃ t, shortfall.solve none = .solved shortfallConfiguration t := by
  obtain ⟨before, after, hc, hbefore⟩ := shortfall_candidates
  have hvalid : shortfall.evaluate ⟨3, 1, 7⟩ = .ok shortfallConfiguration := by decide +kernel
  have hinvalid : ∀ x ∈ before, ¬ shortfall.Valid x := fun x hx =>
    shortfall_not_valid (by rw [hc]; exact List.mem_append_left _ hx) (hbefore x hx)
  obtain ⟨l, hends, hlen, -⟩ := @DividerRange.exists_ends_natural 128 (by norm_num)
  have hcap : withinCap (shortfall.capOr none) shortfall.candidates = shortfall.candidates :=
    shortfall.reach_none hends hends hends (by rw [hlen]; norm_num)
  rcases shortfall.solve_cases none with ⟨before', d, after', c, t, hl, hb, he, hs⟩ | ⟨_, _, hl, -⟩ <;>
    rw [hcap] at hl
  · have hd := first_unique (hl.symm.trans hc) hb ⟨c, he⟩ hinvalid ⟨_, hvalid⟩
    rw [hd, hvalid] at he
    cases he
    exact ⟨t, hs⟩
  · exact absurd ⟨_, hvalid⟩ (hl ⟨3, 1, 7⟩ (by rw [hc]; simp))

end Problem

/-- A problem within all limits of the ECP5 primitive whose solution has a divider that the
primitive has not, and an infinite frequency. -/
theorem exists_not_bounded :
    Family.ecp5.limits.inputFrequency.contains Problem.shortfall.inputFrequency = true
      ∧ Problem.shortfall.requests.map Request.slot = [0]
      ∧ (∀ r ∈ Problem.shortfall.requests,
        Family.ecp5.limits.outputFrequency.contains r.frequency = true)
      ∧ ∃ c t, Problem.shortfall.solve none = .solved c t ∧ ¬ c.Bounded := by
  obtain ⟨t, h⟩ := Problem.solve_shortfall
  refine ⟨by decide +kernel, rfl, by decide +kernel, _, t, h, fun hb => ?_⟩
  obtain ⟨n, h1, -, hn⟩ := hb.outputs ⟨1, 0, 250e6 / 3 * 7 / 0, 0, true⟩ (by
    simp [Problem.shortfallConfiguration])
  have h0 : toNat? 0 = some 0 := by decide +kernel
  rw [h0] at hn
  cases hn
  omega

end Shortfall

end ClockSynth
