import Bertos.Lib.CTypes

/-!
# The ramp of a stepper motor (`bertos/algo/ramp.c`, `bertos/drv/stepper.c`)

The ramp gives the time between two steps of a motor, as a function of a clock that `stepper_accel` moves along by the
value it reads. The numbers are fixed-point numbers of 16 and 32 bits whose arithmetic wraps. The state machine of the
motor is not modelled.
-/

namespace Bertos

structure Ramp where
  clocksRamp : ℕ
  clocksMinWL : ℕ
  clocksMaxWL : ℕ
  maxDivMin : ℕ
  invTotalTime : ℕ

/-- `RAMP_CLOCK_SHIFT_PRECISION` is 2. -/
def rampCompute (clocksRamp clocksMinWL clocksMaxWL : ℕ) : Ramp where
  clocksRamp := clocksRamp
  clocksMinWL := clocksMinWL
  clocksMaxWL := clocksMaxWL
  maxDivMin := clocksMinWL * 65536 / clocksMaxWL % 65536
  invTotalTime := 4294967295 / (clocksRamp / 4)

def fixMult16 (a b : ℕ) : ℕ := b * a % 4294967296 / 65536 % 65536

/-- The `t` of `ramp_evaluate`. -/
def rampTime (ramp : Ramp) (curClock : ℕ) : ℕ := curClock / 4 * ramp.invTotalTime / 65536 % 65536

/-- The `denom` of `ramp_evaluate`. -/
def rampDenom (ramp : Ramp) (t : ℕ) : ℕ := (fixMult16 ((65535 - t + 1) % 65536) ramp.maxDivMin + t) % 65536

def rampEvaluate (ramp : Ramp) (curClock : ℕ) : ℕ :=
  ramp.clocksMinWL * 65536 / rampDenom ramp (rampTime ramp curClock) % 65536

theorem rampEvaluate_lt (ramp : Ramp) (curClock : ℕ) : rampEvaluate ramp curClock < 65536 := Nat.mod_lt _ (by decide)

/-- Where the motor is in the ramp, and the commanded speed. -/
structure RampPos where
  rampStep : ℤ
  rampValue : ℕ
  rampClock : ℕ
  speed : ℕ

def stepperAccel (ramp : Ramp) (p : RampPos) : RampPos :=
  let value := rampEvaluate ramp p.rampClock
  { p with rampValue := value, rampClock := toUnsigned 32 (p.rampClock + value),
           rampStep := toSigned 16 (p.rampStep + 1) }

end Bertos
