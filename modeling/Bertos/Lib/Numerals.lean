import Mathlib.Data.Nat.Digits.Lemmas

/-!
# Numerals

The digits of a number, the high one first, and two loops that write them: `fromLow` takes the digits from the low end
by division with the base, `fromHigh` from the high end by a divisor that falls. Both write the numeral (`fromLow_eq`,
`fromHigh_top`), and a numeral behind zeros has only one value (`leftpad_map_numeral_inj`).
-/

namespace Bertos

open List Nat

/-- The digits of a number in base `b`, the high one first; zero has none. -/
def numeral (b n : ℕ) : List ℕ := (Nat.digits b n).reverse

/-- Digits from the low end: `do *--p = hex[n % b]; while (n /= b)`. -/
def fromLow {α : Type*} (hex : ℕ → α) (b n : ℕ) (acc : List α) : List α :=
  if 1 < b ∧ n / b ≠ 0 then fromLow hex b (n / b) (hex (n % b) :: acc) else hex (n % b) :: acc
termination_by n
decreasing_by exact Nat.div_lt_self (Nat.pos_of_ne_zero (by rintro rfl; simp_all)) (by omega)

/-- Digits from the high end: `do { out(n / d); n %= d; d /= b; } while (d)`. -/
def fromHigh (b d n : ℕ) : List ℕ :=
  n / d :: if 1 < b ∧ d / b ≠ 0 then fromHigh b (d / b) (n % d) else []
termination_by d
decreasing_by exact Nat.div_lt_self (Nat.pos_of_ne_zero (by rintro rfl; simp_all)) (by omega)

/-- The divisor to start with: `while (d > 1 && d > n) d /= b`. -/
def topDivisor (b d n : ℕ) : ℕ := if 1 < b ∧ 1 < d ∧ n < d then topDivisor b (d / b) n else d
termination_by d
decreasing_by exact Nat.div_lt_self (by omega) (by omega)

variable {α β : Type*} {b : ℕ}

/-! ## Padding -/

theorem leftpad_of_le {k : ℕ} {l : List α} (a : α) (h : k ≤ l.length) : l.leftpad k a = l := by
  simp [leftpad, Nat.sub_eq_zero_of_le h]

theorem leftpad_leftpad (j k : ℕ) (a : α) (l : List α) : (l.leftpad j a).leftpad k a = l.leftpad (max k j) a := by
  simp only [leftpad, length_append, length_replicate, ← append_assoc, replicate_append_replicate]
  congr 2
  omega

theorem map_leftpad (f : α → β) (k : ℕ) (a : α) (l : List α) :
    (l.leftpad k a).map f = (l.map f).leftpad k (f a) := by
  simp [leftpad]

/-! ## The numeral -/

@[simp] theorem numeral_zero : numeral b 0 = [] := by simp [numeral]

theorem numeral_pos (hb : 1 < b) {n : ℕ} (hn : n ≠ 0) : numeral b n = numeral b (n / b) ++ [n % b] := by
  rw [numeral, digits_def' hb (pos_of_ne_zero hn), reverse_cons]
  rfl

theorem numeral_lt (hb : 1 < b) {n d : ℕ} (h : d ∈ numeral b n) : d < b :=
  digits_lt_base hb (mem_reverse.mp h)

theorem leftpad_numeral_lt (hb : 1 < b) {k n d : ℕ} (h : d ∈ (numeral b n).leftpad k 0) : d < b := by
  simp only [leftpad, mem_append, mem_replicate] at h
  obtain ⟨-, rfl⟩ | h := h
  · exact lt_trans one_pos hb
  · exact numeral_lt hb h

theorem numeral_length {k n : ℕ} (hb : 1 < b) (h : b ^ k ≤ n) (h' : n < b ^ (k + 1)) : (numeral b n).length =
    k + 1 := by
  have hle := digits_length_le_iff hb (k := k + 1) (n := n)
  have hlt := lt_digits_length_iff hb (k := k) (n := n)
  simp only [numeral, length_reverse]
  omega

theorem leftpad_numeral_succ (hb : 1 < b) (k n : ℕ) :
    (numeral b n).leftpad (k + 1) 0 = (numeral b (n / b)).leftpad k 0 ++ [n % b] := by
  by_cases hn : n = 0
  · simp [hn, leftpad, replicate_succ']
  · rw [numeral_pos hb hn]
    simp [leftpad]

/-- The value of a numeral does not depend on the zeros in front of it. -/
theorem leftpad_numeral_inj {j k m n : ℕ} (h : (numeral b m).leftpad j 0 = (numeral b n).leftpad k 0) : m = n := by
  have value (k n : ℕ) : ofDigits b ((numeral b n).leftpad k 0).reverse = n := by
    simp [leftpad, numeral, ofDigits_append_replicate_zero, ofDigits_digits]
  rw [← value j m, h, value]

theorem leftpad_map_numeral_inj (hex : ℕ → α) (dec : α → ℕ) (hb : 1 < b) (hdec : ∀ d < b, dec (hex d) = d)
    {j k m n : ℕ} (h : ((numeral b m).map hex).leftpad j (hex 0) = ((numeral b n).map hex).leftpad k (hex 0)) :
      m = n := by
  have hback (k n : ℕ) : (((numeral b n).map hex).leftpad k (hex 0)).map dec = (numeral b n).leftpad k 0 := by
    rw [← map_leftpad, map_map]
    exact (map_congr_left fun d hd => hdec d (leftpad_numeral_lt hb hd)).trans (map_id _)
  have h' := congrArg (map dec) h
  rw [hback, hback] at h'
  exact leftpad_numeral_inj h'

/-! ## The loops -/

/-- **Digits from the low end**: the numeral, with one zero if there is no digit. -/
theorem fromLow_eq (hex : ℕ → α) (hb : 1 < b) (n : ℕ) (acc : List α) :
    fromLow hex b n acc = ((numeral b n).leftpad 1 0).map hex ++ acc := by
  induction n using Nat.strong_induction_on generalizing acc with
  | _ n ih =>
    rw [fromLow, leftpad_numeral_succ hb]
    by_cases hq : n / b = 0
    · simp [hq, leftpad]
    · have hlt : n / b < n := Nat.div_lt_self (Nat.pos_of_ne_zero (by rintro rfl; simp at hq)) hb
      have hlen : 1 ≤ (numeral b (n / b)).length := by simp [numeral_pos hb hq]
      rw [if_pos ⟨hb, hq⟩, ih _ hlt, leftpad_of_le 0 hlen]
      simp [leftpad]

theorem fromHigh_one (hb : 1 < b) (n : ℕ) : fromHigh b 1 n = [n] := by
  rw [fromHigh, if_neg (by simp [Nat.div_eq_of_lt hb]), Nat.div_one]

section
variable (hb : 1 < b) (k n : ℕ)
include hb k n

theorem fromHigh_pow : fromHigh b (b ^ (k + 1)) n = n / b ^ (k + 1) :: fromHigh b (b ^ k) (n % b ^ (k + 1)) := by
  have hdiv : b ^ (k + 1) / b = b ^ k := by rw [Nat.pow_succ, Nat.mul_div_cancel _ (by omega)]
  rw [fromHigh, hdiv, if_pos ⟨hb, (Nat.pow_pos (by omega)).ne'⟩]

theorem fromHigh_succ : fromHigh b (b ^ (k + 1)) n = fromHigh b (b ^ k) (n / b) ++ [n % b] := by
  induction k generalizing n with
  | zero => rw [fromHigh_pow hb, Nat.pow_zero, fromHigh_one hb, fromHigh_one hb, Nat.zero_add, Nat.pow_one]; rfl
  | succ k ih =>
    have hhead : n / b ^ (k + 1 + 1) = n / b / b ^ (k + 1) := by rw [Nat.div_div_eq_div_mul, Nat.pow_succ b,
      Nat.mul_comm]
    have hmid : n % b ^ (k + 1 + 1) / b = n / b % b ^ (k + 1) := by
      rw [Nat.pow_succ b (k + 1), Nat.mul_comm, Nat.mod_mul_right_div_self]
    have hlow : n % b ^ (k + 1 + 1) % b = n % b := Nat.mod_mod_of_dvd _ (Dvd.intro_left _ (Nat.pow_succ b (k + 1)).symm)
    rw [fromHigh_pow hb, ih, fromHigh_pow hb, hhead, hmid, hlow, cons_append]

/-- **Digits from the high end**: as many as the divisor has places. -/
theorem fromHigh_eq (h : n < b ^ (k + 1)) : fromHigh b (b ^ k) n = (numeral b n).leftpad (k + 1) 0 := by
  induction k generalizing n with
  | zero =>
    have hn : n < b := by simpa using h
    rw [pow_zero, fromHigh_one hb, leftpad_numeral_succ hb, div_eq_of_lt hn, mod_eq_of_lt hn]
    simp [leftpad]
  | succ k ih =>
    have hq : n / b < b ^ (k + 1) := by
      rw [div_lt_iff_lt_mul (by omega), ← pow_succ]
      exact h
    rw [fromHigh_succ hb, ih _ hq, leftpad_numeral_succ hb (k + 1)]

/-- From its top divisor on, the falling divisor writes no zero in front. -/
theorem fromHigh_top (h : n < b ^ (k + 1)) : fromHigh b (topDivisor b (b ^ k) n) n = (numeral b n).leftpad 1 0 := by
  induction k with
  | zero =>
    rw [topDivisor, if_neg (by simp), fromHigh_eq hb 0 n h]
  | succ k ih =>
    rw [topDivisor]
    split_ifs with hn
    · rw [Nat.pow_succ, Nat.mul_div_cancel _ (by omega)]
      exact ih hn.2.2
    · have hle : b ^ (k + 1) ≤ n := by
        have hone : 1 < b ^ (k + 1) := Nat.one_lt_pow (Nat.succ_ne_zero k) hb
        omega
      have hlen := numeral_length hb hle h
      rw [fromHigh_eq hb _ n h, leftpad_of_le 0 (by omega), leftpad_of_le 0 (by omega)]

end

end Bertos
