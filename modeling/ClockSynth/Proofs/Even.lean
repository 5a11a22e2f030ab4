import ClockSynth.Proofs.Candidate
import ClockSynth.Proofs.Number.Natural

/-!
# Inputs that divide evenly

The phantom's divider is cut from a quotient, and one rounding on the way is enough to lose a whole
step. Where the input divider divides the input, and the loop multiplies it up to no more than
`2 ^ 53`, nothing is rounded: each operation gives the natural number that it stands for
(`EvenLoop.vco`, `EvenLoop.phantomDivider_eq`). A phantom then gets the divider that is fed back,
and the loop closes on the frequency that it set out from (`evaluate_of_evenLoop`).
-/

namespace ClockSynth

open Number

/-- A feedback loop of natural numbers with an input that divides evenly, and that doubles hold up
to its largest product. -/
structure EvenLoop (f : Float) (d : Dividers) (n i o b : ℕ) : Prop where
  frequency : toNat? f = some n
  input : toNat? d.input = some i
  output : toNat? d.output = some o
  feedback : toNat? d.feedback = some b
  frequency_pos : 0 < n
  input_pos : 0 < i
  output_pos : 0 < o
  feedback_pos : 0 < b
  dvd : i ∣ n
  le : n * b * o ≤ 2 ^ 53

namespace EvenLoop

variable {f : Float} {d : Dividers} {n i o b : ℕ}

theorem mul_le (h : EvenLoop f d n i o b) : n * b ≤ 2 ^ 53 :=
  (Nat.le_mul_of_pos_right _ h.output_pos).trans h.le

theorem pfd (h : EvenLoop f d n i o b) : toNat? (f / d.input) = some (n / i) :=
  toNat?_div h.frequency h.input h.input_pos h.dvd <|
    calc n / i ≤ n := Nat.div_le_self n i
      _ ≤ n * b := Nat.le_mul_of_pos_right _ h.feedback_pos
      _ ≤ 2 ^ 53 := h.mul_le

theorem loop (h : EvenLoop f d n i o b) :
    toNat? (f / d.input * d.feedback) = some (n / i * b) :=
  toNat?_mul h.pfd h.feedback <|
    (Nat.mul_le_mul_right b (Nat.div_le_self n i)).trans h.mul_le

theorem vco (h : EvenLoop f d n i o b) :
    toNat? (f / d.input * d.feedback * d.output) = some (n / i * b * o) :=
  toNat?_mul h.loop h.output <|
    (Nat.mul_le_mul_right o (Nat.mul_le_mul_right b (Nat.div_le_self n i))).trans h.le

theorem loop_pos (h : EvenLoop f d n i o b) : 0 < n / i * b :=
  Nat.mul_pos (Nat.div_pos (Nat.le_of_dvd h.frequency_pos h.dvd) h.input_pos) h.feedback_pos

/-- The quotient that the phantom's divider is cut from is the divider that is fed back. -/
theorem quotient (h : EvenLoop f d n i o b) :
    toNat? (f / d.input * d.feedback * d.output * d.input / (f * d.feedback)) = some o := by
  have hnb := Nat.mul_pos h.frequency_pos h.feedback_pos
  have hproduct : n / i * b * o * i = n * b * o := by
    calc n / i * b * o * i = n / i * i * b * o := by ring
      _ = n * b * o := by rw [Nat.div_mul_cancel h.dvd]
  have hcancel : n * b * o / (n * b) = o := Nat.mul_div_cancel_left o hnb
  have hnumerator := toNat?_mul h.vco h.input (hproduct.trans_le h.le)
  rw [hproduct] at hnumerator
  have hquotient := toNat?_div hnumerator (toNat?_mul h.frequency h.feedback h.mul_le) hnb
    (Nat.dvd_mul_right _ _) ((Nat.div_le_self _ _).trans h.le)
  rwa [hcancel] at hquotient

theorem phantomDivider_eq (h : EvenLoop f d n i o b) :
    phantomDivider (f / d.input * d.feedback * d.output) d.input f d.feedback = d.output := by
  obtain ⟨hfinite, hvalue⟩ := value_of_toNat? h.quotient
  refine eq_of_toNat? (toNat?_trunc hfinite hvalue.ge ?_) h.output h.output_pos
  rw [hvalue]
  exact lt_add_one _

/-- The VCO over the divider that is fed back is what the loop made of the input before it. -/
theorem vco_div (h : EvenLoop f d n i o b) :
    f / d.input * d.feedback * d.output / d.output = f / d.input * d.feedback := by
  have hcancel : n / i * b * o / o = n / i * b := Nat.mul_div_cancel _ h.output_pos
  have hquotient := toNat?_div h.vco h.output h.output_pos (Nat.dvd_mul_left _ _) <| by
    rw [hcancel]
    exact (Nat.mul_le_mul_right b (Nat.div_le_self n i)).trans h.mul_le
  rw [hcancel] at hquotient
  exact eq_of_toNat? hquotient h.loop h.loop_pos

theorem loop_div (h : EvenLoop f d n i o b) :
    f / d.input * d.feedback / d.feedback = f / d.input := by
  have hpos := Nat.pos_of_mul_pos_right h.loop_pos
  have hcancel : n / i * b / b = n / i := Nat.mul_div_cancel _ h.feedback_pos
  have hquotient := toNat?_div h.loop h.feedback h.feedback_pos (Nat.dvd_mul_left _ _) <| by
    rw [hcancel]
    exact (Nat.div_le_self n i).trans ((Nat.le_mul_of_pos_right _ h.feedback_pos).trans h.mul_le)
  rw [hcancel] at hquotient
  exact eq_of_toNat? hquotient h.pfd hpos

end EvenLoop

namespace Problem

variable {p : Problem} {d : Dividers} {c : Configuration}

/-- A valid candidate has no phantom but the spare output. -/
theorem eq_phantom_of_evaluate (h : p.evaluate d = .ok c) {x : Output} (hx : x ∈ c.outputs)
    (hphantom : x.phantom = true) : x = p.phantom d := by
  obtain ⟨-, outputs, slot, more, hserved, hclose, rfl⟩ := evaluate_ok_iff.1 h
  have hnone := any_phantom_of_served hserved
  rcases List.mem_append.1 hx with hx | hx
  · have hany := List.any_eq_true.2 ⟨x, hx, hphantom⟩
    rw [hnone] at hany
    cases hany
  · cases hclose with
    | request => cases hx
    | phantom => exact List.mem_singleton.1 hx

/-- Where the input divides evenly, and doubles hold what the loop multiplies it up to, the VCO of a
candidate is exact, and so is the divider of a phantom, which is the one that is fed back. With it
the phantom gives what the loop made of the input before, and over the feedback divider again the
divided input. -/
theorem evaluate_of_evenLoop {n i o b : ℕ} (h : EvenLoop p.inputFrequency d n i o b) :
    toNat? (p.inputFrequency / d.input) = some (n / i)
      ∧ toNat? (p.inputFrequency / d.input * d.feedback) = some (n / i * b)
      ∧ toNat? (p.vco d) = some (n / i * b * o)
      ∧ ClockSynth.phantomDivider (p.vco d) d.input p.inputFrequency d.feedback = d.output
      ∧ ∀ c, p.evaluate d = .ok c → ∀ x ∈ c.outputs, x.phantom = true →
          x.divider = d.output ∧ x.frequency = p.vco d / d.output
            ∧ x.frequency = p.inputFrequency / d.input * d.feedback
            ∧ x.frequency / d.feedback = p.inputFrequency / d.input := by
  refine ⟨h.pfd, h.loop, h.vco, h.phantomDivider_eq, fun c hc x hx hphantom => ?_⟩
  obtain rfl := eq_phantom_of_evaluate hc hx hphantom
  have hdivider : (p.phantom d).divider = d.output := h.phantomDivider_eq
  have hfrequency : (p.phantom d).frequency = p.vco d / d.output :=
    congrArg (p.vco d / ·) hdivider
  have hloop := hfrequency.trans h.vco_div
  exact ⟨hdivider, hfrequency, hloop, by rw [hloop, h.loop_div]⟩

/-- No request, so that a phantom has to feed back. -/
def thirds : Problem where
  inputFrequency := 300e6
  requests := []
  dynamicPhase := false

theorem evaluate_of_evenLoop_thirds :
    EvenLoop thirds.inputFrequency ⟨3, 2, 3⟩ 300000000 3 2 3
      ∧ ∃ c x, thirds.evaluate ⟨3, 2, 3⟩ = .ok c ∧ c.outputs = [x] ∧ x.phantom = true
        ∧ x.divider = 2 ∧ x.frequency = 300e6 / 3 * 3 := by
  have h : EvenLoop thirds.inputFrequency ⟨3, 2, 3⟩ 300000000 3 2 3 :=
    ⟨by decide +kernel, by decide +kernel, by decide +kernel, by decide +kernel, by norm_num,
      by norm_num, by norm_num, by norm_num, by norm_num, by norm_num⟩
  obtain ⟨-, -, -, -, hphantom⟩ := evaluate_of_evenLoop h
  have hc : thirds.evaluate ⟨3, 2, 3⟩
      = .ok ⟨300e6, 3, 3, 2, 600e6, 0, [⟨0, 2, 300e6, 0, true⟩]⟩ := by decide +kernel
  obtain ⟨hdivider, -, hfrequency, -⟩ := hphantom _ hc ⟨0, 2, 300e6, 0, true⟩ (by simp) rfl
  exact ⟨h, _, _, hc, rfl, rfl, hdivider, hfrequency⟩

end Problem

end ClockSynth
