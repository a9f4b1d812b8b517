import Mathlib.Algebra.Group.Nat.Defs
import Mathlib.Data.Int.Notation
import Mathlib.Tactic.Common

/-!
# Bytes

Texts and little-endian numbers as lists of bytes.
-/

namespace Bertos

def ascii (cs : List Char) : List UInt8 := cs.map fun c => c.toNat.toUInt8

def leNat : List UInt8 → ℕ
  | [] => 0
  | x :: xs => x.toNat + 256 * leNat xs

/-- The bytes of a number, the low one first. -/
def leBytesOf : (len n : ℕ) → List UInt8
  | 0, _ => []
  | len + 1, n => UInt8.ofNat n :: leBytesOf len (n / 256)

@[simp] theorem length_leBytesOf (len n : ℕ) : (leBytesOf len n).length = len := by
  induction len generalizing n with
  | zero => rfl
  | succ len ih => simp [leBytesOf, ih]

theorem leBytesOf_leNat (bs : List UInt8) : leBytesOf bs.length (leNat bs) = bs := by
  induction bs with
  | nil => rfl
  | cons b bs ih =>
    have hb := b.toNat_lt
    have hlow : UInt8.ofNat (b.toNat + 256 * leNat bs) = b := UInt8.toNat_inj.mp (by simp)
    rw [List.length_cons, leNat, leBytesOf, hlow, show (b.toNat + 256 * leNat bs) / 256 = leNat bs by omega, ih]

theorem leNat_inj {bs bs' : List UInt8} (hlen : bs.length = bs'.length) (h : leNat bs = leNat bs') : bs = bs' := by
  rw [← leBytesOf_leNat bs, hlen, h, leBytesOf_leNat]

/-- A number that fits is read back. -/
theorem leNat_leBytesOf (len : ℕ) {n : ℕ} (h : n < 256 ^ len) : leNat (leBytesOf len n) = n := by
  induction len generalizing n with
  | zero => exact (Nat.lt_one_iff.mp h).symm
  | succ len ih =>
    rw [leBytesOf, leNat, UInt8.toNat_ofNat', ih (Nat.div_lt_of_lt_mul (by rwa [Nat.mul_comm, ← Nat.pow_succ]))]
    exact Nat.mod_add_div n 256

end Bertos
