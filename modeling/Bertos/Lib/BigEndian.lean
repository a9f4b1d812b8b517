import Mathlib.Algebra.Group.Nat.Defs
import Mathlib.Data.List.Induction
import Mathlib.Tactic.Common

/-!
# Big-endian numbers

A list of bytes is a number in base 256, the high byte first. `beNat` is its value and `beBytesOf` the bytes of a
number; each undoes the other up to the size of the list (`beNat_beBytesOf`, `beBytesOf_beNat`).
-/

namespace Bertos

open List

def beNat (bs : List UInt8) : ℕ := bs.foldl (fun n b => 256 * n + b.toNat) 0

/-- The low `len` bytes of a number, the high one first. -/
def beBytesOf : (len n : ℕ) → List UInt8
  | 0, _ => []
  | len + 1, n => beBytesOf len (n / 256) ++ [UInt8.ofNat n]

theorem beNat_concat (bs : List UInt8) (b : UInt8) : beNat (bs ++ [b]) = 256 * beNat bs + b.toNat := by
  rw [beNat, foldl_append]
  rfl

theorem beNat_lt (bs : List UInt8) : beNat bs < 256 ^ bs.length := by
  induction bs using reverseRecOn with
  | nil => exact Nat.one_pos
  | append_singleton bs b ih =>
    have hb := b.toNat_lt
    rw [beNat_concat, length_append, length_singleton, Nat.pow_succ]
    omega

@[simp] theorem length_beBytesOf (len n : ℕ) : (beBytesOf len n).length = len := by
  induction len generalizing n with
  | zero => rfl
  | succ len ih => rw [beBytesOf, length_append, ih, length_singleton]

theorem beBytesOf_add (a b n : ℕ) : beBytesOf (a + b) n = beBytesOf a (n / 256 ^ b) ++ beBytesOf b n := by
  induction b generalizing n with
  | zero => rw [Nat.add_zero, Nat.pow_zero, Nat.div_one, beBytesOf, append_nil]
  | succ b ih =>
    rw [← Nat.add_assoc, beBytesOf, ih, beBytesOf, append_assoc, Nat.div_div_eq_div_mul, Nat.pow_succ,
      Nat.mul_comm 256]

theorem beNat_beBytesOf (len n : ℕ) : beNat (beBytesOf len n) = n % 256 ^ len := by
  induction len generalizing n with
  | zero => exact (Nat.mod_one n).symm
  | succ len ih =>
    have hsplit : n % 256 ^ (len + 1) = n % 256 + 256 * (n / 256 % 256 ^ len) := by
      rw [Nat.pow_succ, Nat.mul_comm, Nat.mod_mul]
    have hbyte : (UInt8.ofNat n).toNat = n % 256 := UInt8.toNat_ofNat'
    rw [beBytesOf, beNat_concat, ih, hbyte, hsplit, Nat.add_comm]

theorem beBytesOf_beNat (bs : List UInt8) : beBytesOf bs.length (beNat bs) = bs := by
  induction bs using reverseRecOn with
  | nil => rfl
  | append_singleton bs b ih =>
    have hb := b.toNat_lt
    have hdiv : (256 * beNat bs + b.toNat) / 256 = beNat bs := by omega
    have hbyte : UInt8.ofNat (256 * beNat bs + b.toNat) = b := by
      apply UInt8.toNat_inj.mp
      rw [UInt8.toNat_ofNat']
      omega
    rw [length_append, length_singleton, beBytesOf, beNat_concat, hdiv, ih, hbyte]

/-- The bytes do not tell numbers apart that differ by a multiple of the range. -/
theorem beBytesOf_mod (len n : ℕ) : beBytesOf len (n % 256 ^ len) = beBytesOf len n := by
  conv_lhs => rw [← beNat_beBytesOf]
  nth_rw 1 [← length_beBytesOf len n]
  exact beBytesOf_beNat _

end Bertos
