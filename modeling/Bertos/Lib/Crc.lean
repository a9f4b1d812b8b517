import Mathlib.Data.List.Basic
import Mathlib.Tactic.Common

/-!
# Reflected cyclic redundancy checks

A register of `w` bits takes one bit at a time: it moves down, and the polynomial `P` is added if the bit that
falls out differs from the input. This is linear (`feed_zipWith`), so that a table gives many bits at once
(`feed_table`). If the top bit of `P` is set, then two inputs that differ only within `w` consecutive bits give
different registers (`feed_burst`).
-/

namespace Crc

open List

variable {w : ℕ} (P : BitVec w)

/-- One bit of input. -/
def bit (r : BitVec w) (b : Bool) : BitVec w := r >>> 1 ^^^ if r.getLsbD 0 ^^ b then P else 0#w

def feed (r : BitVec w) (l : List Bool) : BitVec w := l.foldl (bit P) r

/-- The `n` low bits, the lowest one first. -/
def lows (n : ℕ) (x : BitVec w) : List Bool := (range n).map x.getLsbD

theorem feed_append (r : BitVec w) (l m : List Bool) : feed P r (l ++ m) = feed P (feed P r l) m := foldl_append

theorem xor_swap (a b c d : BitVec w) : a ^^^ b ^^^ (c ^^^ d) = a ^^^ c ^^^ (b ^^^ d) := by ac_rfl

/-! ## Linearity -/

theorem bit_xor (r s : BitVec w) (b c : Bool) : bit P (r ^^^ s) (b ^^ c) = bit P r b ^^^ bit P s c := by
  simp only [bit, BitVec.ushiftRight_xor_distrib, BitVec.getLsbD_xor]
  rw [xor_swap (r >>> 1)]
  congr 1
  cases r.getLsbD 0 <;> cases s.getLsbD 0 <;> cases b <;> cases c <;> simp

theorem feed_zipWith (r s : BitVec w) (l m : List Bool) (h : l.length = m.length) :
    feed P (r ^^^ s) (zipWith xor l m) = feed P r l ^^^ feed P s m := by
  induction l generalizing r s m with
  | nil =>
    cases m with
    | nil => rfl
    | cons c m => cases h
  | cons b l ih =>
    cases m with
    | nil => cases h
    | cons c m =>
      simp only [feed, zipWith_cons_cons, foldl_cons, bit_xor]
      exact ih _ _ _ (Nat.succ.inj h)

/-- Input that cancels the register bit by bit only moves it down. -/
theorem feed_lows (n : ℕ) (x : BitVec w) : feed P x (lows n x) = x >>> n := by
  induction n generalizing x with
  | zero => simp [feed, lows]
  | succ n ih =>
    have hl : lows (n + 1) x = x.getLsbD 0 :: lows n (x >>> 1) := by
      simp [lows, range_succ_eq_map, Function.comp_def, Nat.add_comm]
    have hb : bit P x (x.getLsbD 0) = x >>> 1 := by simp [bit]
    rw [hl, feed, foldl_cons, hb]
    exact (ih (x >>> 1)).trans (by rw [← BitVec.shiftRight_add, Nat.add_comm])

theorem zipWith_xor_false (l : List Bool) : zipWith xor l (replicate l.length false) = l := by
  induction l with
  | nil => rfl
  | cons b l ih => simp [replicate_succ, ih]

/-- **A table**: `n` bits of input at once. The low bits `y` of the register are the index, whose entry is the register
that `n` zeros make of it. -/
theorem feed_table {n : ℕ} (r y : BitVec w) (l : List Bool) (hl : l = lows n (r ^^^ y)) (hy : y >>> n = 0#w) :
    feed P r l = r >>> n ^^^ feed P y (replicate n false) := by
  have hlen : l.length = n := by simp [hl, lows]
  have hr : r = (r ^^^ y) ^^^ y := by rw [BitVec.xor_assoc, BitVec.xor_self, BitVec.xor_zero]
  have hz : zipWith xor l (replicate n false) = l := hlen ▸ zipWith_xor_false l
  calc feed P r l = feed P ((r ^^^ y) ^^^ y) (zipWith xor l (replicate n false)) := by rw [← hr, hz]
    _ = feed P (r ^^^ y) l ^^^ feed P y (replicate n false) := feed_zipWith P _ _ _ _ (by simp [hlen])
    _ = r >>> n ^^^ feed P y (replicate n false) := by
      rw [hl, feed_lows, BitVec.ushiftRight_xor_distrib, hy, BitVec.xor_zero]

/-! ## Bursts -/

variable {P}

section
variable (hP : P.getLsbD (w - 1) = true)
include hP

/-- A set bit is not lost before it falls out: it moves down, or the top bit is set. -/
theorem bit_shiftRight_ne {x : BitVec w} {m : ℕ} (hm : m + 1 < w) (hx : x >>> (m + 1) ≠ 0#w) (b : Bool) :
    bit P x b >>> m ≠ 0#w := by
  intro h
  cases hb : x.getLsbD 0 ^^ b with
  | false =>
    simp only [bit, hb, Bool.false_eq_true, if_false, BitVec.xor_zero] at h
    exact hx (by rw [Nat.add_comm, BitVec.shiftRight_add]; exact h)
  | true =>
    have ht := congrArg (fun v => BitVec.getLsbD v (w - 1 - m)) h
    simp [bit, hb, show m + (w - 1 - m) = w - 1 by omega, hP, show 1 + (w - 1) = w by omega] at ht

theorem feed_ne_zero (l : List Bool) {x : BitVec w} (hl : l.length < w) (hx : x >>> l.length ≠ 0#w) :
    feed P x l ≠ 0#w := by
  induction l generalizing x with
  | nil => simpa [feed] using hx
  | cons b l ih => exact ih (Nat.lt_of_succ_lt hl) (bit_shiftRight_ne hP hl hx b)

/-- Zeros do not clear the register. -/
theorem bit_false_ne_zero {x : BitVec w} (hx : x ≠ 0#w) : bit P x false ≠ 0#w := by
  intro h
  cases hb : x.getLsbD 0 with
  | true =>
    have ht := congrArg (fun v => BitVec.getLsbD v (w - 1)) h
    have hw : 0 < w := BitVec.lt_of_getLsbD hb
    simp [bit, hb, hP, show 1 + (w - 1) = w by omega] at ht
  | false =>
    refine hx (BitVec.eq_of_getLsbD_eq fun i _ => ?_)
    have ht := congrArg (fun v => BitVec.getLsbD v (i - 1)) h
    cases i with
    | zero => simpa using hb
    | succ i => simpa [bit, hb, Nat.add_comm] using ht

theorem feed_injective (l : List Bool) {r s : BitVec w} (h : feed P r l = feed P s l) : r = s := by
  induction l generalizing r s with
  | nil => exact h
  | cons b l ih =>
    have hb : bit P (r ^^^ s) false = 0#w := by
      have hx := bit_xor P r s b b
      rw [Bool.xor_self] at hx
      rw [hx, ih h, BitVec.xor_self]
    by_contra hne
    exact bit_false_ne_zero hP (fun h0 => hne (BitVec.xor_eq_zero_iff.mp h0)) hb

/-- A burst no longer than the register is always seen. -/
theorem feed_zero_ne_zero (l : List Bool) (hl : l.length ≤ w) (ht : true ∈ l) : feed P 0#w l ≠ 0#w := by
  induction l with
  | nil => cases ht
  | cons b l ih =>
    cases b with
    | false =>
      have h0 : feed P 0#w (false :: l) = feed P 0#w l := by simp [feed, bit]
      rw [h0]
      exact ih (Nat.le_of_succ_le hl) (by simpa using ht)
    | true =>
      have h0 : feed P 0#w (true :: l) = feed P P l := by simp [feed, bit]
      rw [h0]
      refine feed_ne_zero hP l hl fun hz => ?_
      have hbit := congrArg (fun v => BitVec.getLsbD v (w - 1 - l.length)) hz
      simp only [length_cons] at hl
      simp [show l.length + (w - 1 - l.length) = w - 1 by omega, hP] at hbit

/-- **Short bursts are detected**: two inputs that agree outside `w` bits at position `i` give different registers. -/
theorem feed_burst (r : BitVec w) {l m : List Bool} (hlen : l.length = m.length) (hne : l ≠ m) (i : ℕ)
    (hout : ∀ j, l[j]? ≠ m[j]? → i ≤ j ∧ j < i + w) : feed P r l ≠ feed P r m := by
  have hpre : l.take i = m.take i := by
    refine ext_getElem? fun j => ?_
    rw [getElem?_take, getElem?_take]
    split
    · by_contra hj
      exact absurd (hout j hj).1 (by omega)
    · rfl
  have hpost : (l.drop i).drop w = (m.drop i).drop w := by
    refine ext_getElem? fun j => ?_
    rw [getElem?_drop, getElem?_drop, getElem?_drop, getElem?_drop]
    by_contra hj
    exact absurd (hout _ hj).2 (by omega)
  -- the two windows
  generalize hl1 : (l.drop i).take w = l1 at *
  generalize hm1 : (m.drop i).take w = m1 at *
  have hl : l = l.take i ++ (l1 ++ (l.drop i).drop w) := by rw [← hl1, take_append_drop, take_append_drop]
  have hm : m = l.take i ++ (m1 ++ (l.drop i).drop w) := by
    rw [← hm1, hpre, hpost, take_append_drop, take_append_drop]
  have hw : l1.length = m1.length := by simp [← hl1, ← hm1, hlen]
  intro h
  rw [hl, hm, feed_append, feed_append, feed_append, feed_append] at h
  have hx := feed_zipWith P (feed P r (l.take i)) (feed P r (l.take i)) l1 m1 hw
  rw [feed_injective hP _ h, BitVec.xor_self, BitVec.xor_self] at hx
  refine feed_zero_ne_zero hP (zipWith xor l1 m1) ?_ ?_ hx
  · simp only [length_zipWith, ← hl1, length_take]
    omega
  · by_contra hall
    have heq : l1 = m1 := by
      refine ext_getElem hw fun j hj hj' => ?_
      have hmem : (l1[j] ^^ m1[j]) ∈ zipWith xor l1 m1 := by
        rw [← getElem_zipWith (f := xor) (h := by simp; omega)]
        exact getElem_mem _
      cases hb : l1[j] ^^ m1[j] with
      | true => exact absurd (hb ▸ hmem) hall
      | false => simpa using hb
    exact hne (by rw [hl, hm, heq])

end

end Crc
