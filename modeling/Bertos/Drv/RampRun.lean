import Bertos.Drv.Stepper
import Mathlib.Tactic.IntervalCases

/-!
# The ramp while the motor accelerates (`bertos/algo/ramp.c`)

`accelRun` calls `stepper_accel` again and again from the beginning of the ramp, as long as the value is above the
commanded speed (`Accelerates`). While the clock stays inside the ramp, and if the rounding does not push the first
value above the maximum, the values stay between their bounds and do not increase (`ramp_wellBehaved`). The clock need
not be there: a long ramp begins with a fraction of 0.
-/

namespace Bertos

open Nat

/-- A ramp that has passed the assertions of `ramp_compute`, which has not divided by 0. -/
structure RampChecked (ramp : Ramp) : Prop where
  eq : ramp = rampCompute ramp.clocksRamp ramp.clocksMinWL ramp.clocksMaxWL
  min_le : ramp.clocksMinWL ≤ ramp.clocksMaxWL
  max_lt : ramp.clocksMaxWL < 65536
  ramp_ne : ramp.clocksRamp / 4 ≠ 0
  ramp_lt : ramp.clocksRamp < 67108864
  inv_lt : ramp.invTotalTime < 0x1000000

/-- The motor at the beginning of the ramp, after a number of `stepper_accel`. -/
def accelRun (ramp : Ramp) (speed j : ℕ) : RampPos :=
  (stepperAccel ramp)^[j] ⟨0, ramp.clocksMaxWL, ramp.clocksMaxWL, speed⟩

/-- The next `stepper_accel` is called: all the values so far are above the speed. -/
def Accelerates (ramp : Ramp) (speed j : ℕ) : Prop := ∀ i ≤ j, speed < (accelRun ramp speed i).rampValue

/-- The fraction of the time at this clock is neither 0 nor 1. -/
def InRamp (ramp : Ramp) (clock : ℕ) : Prop :=
  65536 ≤ clock / 4 * ramp.invTotalTime ∧ clock / 4 * ramp.invTotalTime < 4294967296

instance (ramp : Ramp) (clock : ℕ) : Decidable (InRamp ramp clock) := instDecidableAnd

section Denom

variable {ramp : Ramp} {t t' clock clock' : ℕ}

theorem rampDenom_eq (hm : ramp.maxDivMin < 65536) (ht : 0 < t) (ht' : t < 65536) :
    rampDenom ramp t = ramp.maxDivMin * (65536 - t) / 65536 + t ∧ rampDenom ramp t < 65536 := by
  have hmul : ramp.maxDivMin * (65536 - t) ≤ 65535 * (65536 - t) := mul_le_mul_right _ (le_of_lt_succ hm)
  have hneg : (65535 - t + 1) % 65536 = 65536 - t := by omega
  rw [rampDenom, fixMult16, hneg]
  omega

/-- The denominator does not fall. -/
theorem rampDenom_mono (hm : ramp.maxDivMin < 65536) (ht : 0 < t) (hle : t ≤ t') (ht' : t' < 65536) :
    rampDenom ramp t ≤ rampDenom ramp t' := by
  rw [(rampDenom_eq hm ht (lt_of_le_of_lt hle ht')).1, (rampDenom_eq hm (lt_of_lt_of_le ht hle) ht').1]
  have hsplit : 65536 - t = 65536 - t' + (t' - t) := by omega
  have hmul : ramp.maxDivMin * (t' - t) ≤ 65536 * (t' - t) := mul_le_mul_right _ (le_of_lt hm)
  rw [hsplit, mul_add]
  omega

theorem rampTime_of_inRamp (h : InRamp ramp clock) : 0 < rampTime ramp clock ∧
    rampTime ramp clock = clock / 4 * ramp.invTotalTime / 65536 := by
  have h₁ := h.1
  have h₂ := h.2
  rw [rampTime]
  omega

theorem rampTime_mono (h : InRamp ramp clock) (h' : InRamp ramp clock') (hle : clock ≤ clock') :
    rampTime ramp clock ≤ rampTime ramp clock' := by
  rw [(rampTime_of_inRamp h).2, (rampTime_of_inRamp h').2]
  exact Nat.div_le_div_right (Nat.mul_le_mul_right _ (Nat.div_le_div_right hle))

/-- The value before it is cut to 16 bits. -/
def rampQuotient (ramp : Ramp) (clock : ℕ) : ℕ := ramp.clocksMinWL * 65536 / rampDenom ramp (rampTime ramp clock)

section
variable (hm : ramp.maxDivMin < 65536) (h : InRamp ramp clock)
include hm h

theorem rampDenom_of_inRamp :
    0 < rampDenom ramp (rampTime ramp clock) ∧ rampDenom ramp (rampTime ramp clock) < 65536 := by
  have ht := (rampTime_of_inRamp h).1
  have hd := rampDenom_eq hm ht (mod_lt _ (by decide))
  exact ⟨by omega, hd.2⟩

theorem rampQuotient_ge : ramp.clocksMinWL ≤ rampQuotient ramp clock := by
  obtain ⟨hpos, hlt⟩ := rampDenom_of_inRamp hm h
  exact (le_div_iff_mul_le hpos).mpr (mul_le_mul_left _ (le_of_lt hlt))

theorem rampQuotient_anti (h' : InRamp ramp clock')
    (hle : clock ≤ clock') : rampQuotient ramp clock' ≤ rampQuotient ramp clock :=
  div_le_div_left (rampDenom_mono hm (rampTime_of_inRamp h).1 (rampTime_mono h h' hle) (mod_lt _ (by decide)))
    (rampDenom_of_inRamp hm h).1

end

end Denom

/-! ## The run -/

section Run

variable {ramp : Ramp} {speed j : ℕ}

theorem RampChecked.maxDivMin_lt (h : RampChecked ramp) : ramp.maxDivMin < 65536 := by
  rw [h.eq]
  exact mod_lt _ (by decide)

theorem RampChecked.inv_ge (h : RampChecked ramp) : 256 ≤ ramp.invTotalTime := by
  have hlt := h.ramp_lt
  rw [h.eq]
  refine (le_div_iff_mul_le (pos_of_ne_zero h.ramp_ne)).mpr ?_
  omega

/-- The first value is not above the maximum if the denominator has grown since the beginning of the ramp, or if the
quotient of the bounds lost little when it was rounded down. -/
theorem RampChecked.first_le (h : RampChecked ramp) (hlt : ramp.clocksMinWL < ramp.clocksMaxWL)
    (hin : InRamp ramp ramp.clocksMaxWL)
    (hround : 65536 ≤ (65536 - ramp.maxDivMin) * (ramp.clocksMaxWL / 4 * ramp.invTotalTime / 65536) ∨
      ramp.clocksMinWL * 65536 < ramp.maxDivMin * (ramp.clocksMaxWL + 1)) :
    rampQuotient ramp ramp.clocksMaxWL ≤ ramp.clocksMaxWL := by
  have hm := h.maxDivMin_lt
  obtain ⟨hpos, htime⟩ := rampTime_of_inRamp hin
  have hdenom := (rampDenom_eq hm hpos (mod_lt _ (by decide))).1
  have hmax : 0 < ramp.clocksMaxWL := zero_lt_of_lt hlt
  have hquot : ramp.maxDivMin = ramp.clocksMinWL * 65536 / ramp.clocksMaxWL := by
    rw [h.eq]
    exact mod_eq_of_lt ((div_lt_iff_lt_mul hmax).mpr (by omega))
  have hfloor : ramp.clocksMinWL * 65536 < (ramp.maxDivMin + 1) * ramp.clocksMaxWL :=
    (div_lt_iff_lt_mul hmax).mp (hquot ▸ lt_succ_self _)
  rw [← htime] at hround
  have ht : rampTime ramp ramp.clocksMaxWL < 65536 := mod_lt _ (by decide)
  have hle : ramp.maxDivMin * rampTime ramp ramp.clocksMaxWL ≤ 65536 * rampTime ramp ramp.clocksMaxWL :=
    mul_le_mul_right _ (le_of_lt hm)
  rw [Nat.mul_sub] at hdenom
  refine le_of_lt_succ ((div_lt_iff_lt_mul (rampDenom_of_inRamp hm hin).1).mpr ?_)
  rcases hround with hgrown | hexact
  · have hd : ramp.maxDivMin + 1 ≤ rampDenom ramp (rampTime ramp ramp.clocksMaxWL) := by
      rw [Nat.sub_mul] at hgrown
      omega
    calc _ < (ramp.maxDivMin + 1) * ramp.clocksMaxWL := hfloor
      _ ≤ succ ramp.clocksMaxWL * rampDenom ramp (rampTime ramp ramp.clocksMaxWL) := by
        rw [Nat.mul_comm]
        exact Nat.mul_le_mul (le_succ _) hd
  · have hd : ramp.maxDivMin ≤ rampDenom ramp (rampTime ramp ramp.clocksMaxWL) := by omega
    calc _ < ramp.maxDivMin * (ramp.clocksMaxWL + 1) := hexact
      _ ≤ succ ramp.clocksMaxWL * rampDenom ramp (rampTime ramp ramp.clocksMaxWL) := by
        rw [Nat.mul_comm]
        exact Nat.mul_le_mul_left _ hd

theorem accelRun_succ (ramp : Ramp) (speed j : ℕ) :
    accelRun ramp speed (j + 1) = stepperAccel ramp (accelRun ramp speed j) := Function.iterate_succ_apply' ..

theorem Accelerates.of_succ (h : Accelerates ramp speed (j + 1)) : Accelerates ramp speed j :=
  fun i hi => h i (le_succ_of_le hi)

/-- Inside the ramp the clock does not overflow. -/
theorem accelRun_clock (hramp : RampChecked ramp) (h : InRamp ramp (accelRun ramp speed j).rampClock) :
    (accelRun ramp speed j).rampClock ≤ (accelRun ramp speed (j + 1)).rampClock := by
  have hlt : (accelRun ramp speed j).rampClock / 4 * 256 < 4294967296 :=
    lt_of_le_of_lt (mul_le_mul_left _ hramp.inv_ge) h.2
  have hv := rampEvaluate_lt ramp (accelRun ramp speed j).rampClock
  have hfits := toUnsigned_of_range (b := 32)
    (v := (accelRun ramp speed j).rampClock + rampEvaluate ramp (accelRun ramp speed j).rampClock) (by omega) (by omega)
  rw [accelRun_succ, stepperAccel]
  dsimp only
  omega

section
variable (hramp : RampChecked ramp) (hin : ∀ j, Accelerates ramp speed j →
    InRamp ramp (accelRun ramp speed j).rampClock)
include hramp hin

theorem accelRun_clock_ge (hj : Accelerates ramp speed j) : ramp.clocksMaxWL ≤ (accelRun ramp speed j).rampClock := by
  induction j with
  | zero => exact le_refl _
  | succ j ih => exact le_trans (ih hj.of_succ) (accelRun_clock hramp (hin j hj.of_succ))

/-- No value is above the first one, and so none is cut. -/
theorem accelRun_value
    (hfirst : rampQuotient ramp ramp.clocksMaxWL ≤ ramp.clocksMaxWL) (hj : Accelerates ramp speed j) :
    (accelRun ramp speed (j + 1)).rampValue = rampQuotient ramp (accelRun ramp speed j).rampClock ∧
      rampQuotient ramp (accelRun ramp speed j).rampClock ≤ ramp.clocksMaxWL := by
  have hstart : InRamp ramp ramp.clocksMaxWL := hin 0 fun i hi => hj i (le_trans hi (zero_le j))
  have hle : rampQuotient ramp (accelRun ramp speed j).rampClock ≤ ramp.clocksMaxWL :=
    le_trans (rampQuotient_anti hramp.maxDivMin_lt hstart (hin j hj) (accelRun_clock_ge hramp hin hj)) hfirst
  refine ⟨?_, hle⟩
  rw [accelRun_succ]
  exact mod_eq_of_lt (lt_of_le_of_lt hle hramp.max_lt)

end

end Run

/-- **When the ramp is well behaved**: as long as the clock is inside the ramp, and if rounding `max_div_min` down does
not lift the first value above the maximum, no value is a quotient by 0, all values are between the bounds, and none is
above the one before. -/
theorem ramp_wellBehaved (ramp : Ramp) (speed j : ℕ) (hramp : RampChecked ramp) (hspeed : ramp.clocksMinWL ≤ speed)
    (hin : ∀ j, Accelerates ramp speed j → InRamp ramp (accelRun ramp speed j).rampClock)
    (hround : 65536 ≤ (65536 - ramp.maxDivMin) * (ramp.clocksMaxWL / 4 * ramp.invTotalTime / 65536) ∨
      ramp.clocksMinWL * 65536 < ramp.maxDivMin * (ramp.clocksMaxWL + 1))
    (hj : Accelerates ramp speed j) :
    rampDenom ramp (rampTime ramp (accelRun ramp speed j).rampClock) ≠ 0 ∧
      ramp.clocksMinWL ≤ (accelRun ramp speed (j + 1)).rampValue ∧
      (accelRun ramp speed (j + 1)).rampValue ≤ ramp.clocksMaxWL ∧
      (accelRun ramp speed (j + 1)).rampValue ≤ (accelRun ramp speed j).rampValue := by
  have hm := hramp.maxDivMin_lt
  have hclock := hin j hj
  have hstart : Accelerates ramp speed 0 := fun i hi => hj i (le_trans hi (zero_le j))
  have hfirst := hramp.first_le (lt_of_le_of_lt hspeed (hstart 0 (le_refl 0))) (hin 0 hstart) hround
  obtain ⟨hvalue, hle⟩ := accelRun_value hramp hin hfirst hj
  rw [hvalue]
  refine ⟨ne_of_gt (rampDenom_of_inRamp hm hclock).1, rampQuotient_ge hm hclock, hle, ?_⟩
  cases j with
  | zero => exact hle
  | succ j =>
    have hj' := hj.of_succ
    rw [(accelRun_value hramp hin hfirst hj').1]
    exact rampQuotient_anti hm (hin j hj') hclock (accelRun_clock hramp (hin j hj'))

/-- A short ramp, up to a speed that is reached by two steps. -/
theorem ramp_wellBehaved_short : (accelRun (rampCompute 4096 1000 2000) 1200 2).rampValue ≤
    (accelRun (rampCompute 4096 1000 2000) 1200 1).rampValue := by
  have hj : Accelerates (rampCompute 4096 1000 2000) 1200 1 := fun i hi => by
    interval_cases i <;> decide
  refine (ramp_wellBehaved _ 1200 1 ⟨rfl, by decide, by decide, by decide, by decide, by decide⟩ (by decide)
    (fun j hj => ?_) (by decide) hj).2.2.2
  have hlt : j < 2 := by
    by_contra hge
    exact absurd (hj 2 (Nat.le_of_not_lt hge)) (by decide)
  interval_cases j <;> decide

/-- At the beginning of a long ramp, `ramp_evaluate` divides by 0. -/
theorem ramp_divides_by_zero : RampChecked (rampCompute 60000000 100 200) ∧
    rampDenom (rampCompute 60000000 100 200) (rampTime (rampCompute 60000000 100 200) 200) = 0 :=
  ⟨⟨rfl, by decide, by decide, by decide, by decide, by decide⟩, by decide⟩

end Bertos
