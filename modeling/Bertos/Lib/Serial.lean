import Mathlib.Data.Int.Basic

/-!
# Serial numbers: signed differences of a counter that wraps

A counter of `w` bits is compared by the sign of a difference modulo `2 ^ w`. This is not an order on all values, but
it is the difference of the integers as long as both numbers are less than half of the range ahead of a common origin
(`toInt_sub_eq`), or in general as long as the subtraction of the distances does not overflow (`toInt_sub_of_fits`).
-/

namespace Bertos.Serial

variable {w : ℕ} {a b c : BitVec w}

/-- The difference of two numbers ahead of `c` is the difference of their distances from `c`. -/
theorem toInt_sub_eq (ha : 0 ≤ (a - c).toInt) (hb : 0 ≤ (b - c).toInt) :
    (a - b).toInt = (a - c).toInt - (b - c).toInt := by
  have h : a - b = (a - c) - (b - c) := by grind
  have ha' := @BitVec.two_mul_toInt_lt w (a - c)
  have hb' := @BitVec.two_mul_toInt_lt w (b - c)
  rw [h, BitVec.toInt_sub]
  apply Int.bmod_eq_of_le_mul_two
  all_goals push_cast; omega

/-- A number that is ahead of the origin comes nearer when the origin moves. -/
theorem toInt_sub_succ (h : 0 < (a - c).toInt) : (a - (c + 1)).toInt = (a - c).toInt - 1 := by
  have e : a - (c + 1) = (a - c) - 1 := by grind
  have ha := @BitVec.two_mul_toInt_lt w (a - c)
  have hw : 1 < w := by
    by_contra hw
    obtain rfl | rfl : w = 0 ∨ w = 1 := by omega
    all_goals omega
  have h1 : (1 : BitVec w).toInt = 1 := BitVec.toInt_one hw
  rw [e, BitVec.toInt_sub, h1]
  apply Int.bmod_eq_of_le_mul_two
  all_goals push_cast; omega

/-- A number at or ahead of the origin: the origin has not reached it yet iff the distance is positive. -/
theorem toInt_sub_neg_iff (h : 0 ≤ (a - c).toInt) : (c - a).toInt < 0 ↔ 0 < (a - c).toInt := by
  have hc : (c - c).toInt = 0 := by simp
  have e := toInt_sub_eq (a := c) (b := a) (c := c) (by omega) h
  omega

/-- The difference of two numbers is the difference of their distances from `c`, when that does not overflow. -/
theorem toInt_sub_of_fits (h : (a - c).ssubOverflow (b - c) = false) :
    (a - b).toInt = (a - c).toInt - (b - c).toInt := by
  have e : a - b = (a - c) - (b - c) := by grind
  rw [e, BitVec.toInt_sub_of_not_ssubOverflow (by rw [h]; exact nofun)]

end Bertos.Serial
