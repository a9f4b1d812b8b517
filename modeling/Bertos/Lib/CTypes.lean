import Mathlib.Algebra.Group.Nat.Defs
import Mathlib.Algebra.Order.Ring.Int
import Mathlib.Data.Int.Init
import Mathlib.Tactic.Common

/-!
# The integral types of C

A value of an integral type is the integer it stands for; `toSigned` and `toUnsigned` are the conversions to a type with
a number of bits, in two's complement. `CTypes` gives the sizes of the types of a machine.
-/

namespace Bertos

def toSigned (bits : ℕ) (v : ℤ) : ℤ := v.bmod (2 ^ bits)

def toUnsigned (bits : ℕ) (v : ℤ) : ℕ := (v % (2 ^ bits : ℕ)).toNat

structure CTypes where
  shortBits : ℕ
  intBits : ℕ
  longBits : ℕ
  /-- `size_t` is as wide as `long`, and not as `int`. -/
  sizeIsLong : Bool
  short_ge : 16 ≤ shortBits
  short_le : shortBits ≤ intBits
  int_le : intBits ≤ longBits

namespace CTypes

variable (T : CTypes)

def toShort (v : ℤ) : ℤ := toSigned T.shortBits v

def toInt (v : ℤ) : ℤ := toSigned T.intBits v

def toLong (v : ℤ) : ℤ := toSigned T.longBits v

def toUShort (v : ℤ) : ℕ := toUnsigned T.shortBits v

def toUInt (v : ℤ) : ℕ := toUnsigned T.intBits v

def toULong (v : ℤ) : ℕ := toUnsigned T.longBits v

/-- `INT_MAX` -/
def intMax : ℕ := 2 ^ (T.intBits - 1) - 1

def arm32 : CTypes := ⟨16, 32, 32, true, by decide, by decide, by decide⟩

end CTypes

/-! ## The conversions -/

variable {b : ℕ}

theorem two_pow_half (hb : b ≠ 0) : 2 ^ b = 2 * 2 ^ (b - 1) := by
  obtain ⟨k, rfl⟩ := Nat.exists_eq_succ_of_ne_zero hb
  rw [Nat.pow_succ, Nat.mul_comm]
  rfl

theorem toSigned_range (hb : b ≠ 0) (v : ℤ) : -(2 ^ (b - 1) : ℕ) ≤ toSigned b v ∧ toSigned b v < (2 ^ (b - 1) : ℕ) := by
  have hpos : 0 < 2 ^ b := Nat.pow_pos Nat.two_pos
  have hlo := Int.le_bmod (x := v) hpos
  have hhi := Int.bmod_lt (x := v) hpos
  have h := two_pow_half hb
  unfold toSigned
  omega

variable {v : ℤ}

theorem toSigned_of_range (hb : b ≠ 0) (hlo : -(2 ^ (b - 1) : ℕ) ≤ v) (hhi : v < (2 ^ (b - 1) : ℕ)) :
    toSigned b v = v := by
  have h := two_pow_half hb
  exact Int.bmod_eq_of_le (by omega) (by omega)

theorem toUnsigned_of_range (hlo : 0 ≤ v) (hhi : v < (2 ^ b : ℕ)) : (toUnsigned b v : ℤ) = v := by
  rw [toUnsigned, Int.emod_eq_of_lt hlo hhi, Int.toNat_of_nonneg hlo]

theorem toUnsigned_lt (b : ℕ) (v : ℤ) : toUnsigned b v < 2 ^ b := by
  have hpos : 0 < 2 ^ b := Nat.pow_pos Nat.two_pos
  have hlt := Int.emod_lt_of_pos v (Int.natCast_pos.mpr hpos)
  unfold toUnsigned
  omega

theorem toSigned_toUnsigned (b : ℕ) (v : ℤ) : toSigned b (toUnsigned b v) = toSigned b v := by
  have hnn := Int.emod_nonneg v (Int.natCast_pos.mpr (Nat.pow_pos Nat.two_pos (n := b))).ne'
  rw [toSigned, toUnsigned, Int.toNat_of_nonneg hnn, Int.emod_bmod]
  rfl

theorem toUnsigned_toSigned (b : ℕ) (v : ℤ) : toUnsigned b (toSigned b v) = toUnsigned b v := by
  rw [toSigned, toUnsigned, Int.bmod_emod]
  rfl

theorem toUnsigned_add_left (b : ℕ) (v u : ℤ) : toUnsigned b (toUnsigned b v + u) = toUnsigned b (v + u) := by
  have hnn := Int.emod_nonneg v (Int.natCast_pos.mpr (Nat.pow_pos Nat.two_pos (n := b))).ne'
  rw [toUnsigned, toUnsigned, Int.toNat_of_nonneg hnn, Int.emod_add_emod]
  rfl

theorem toUnsigned_neg (b : ℕ) (v : ℤ) : toUnsigned b (-(toUnsigned b v : ℤ)) = toUnsigned b (-v) := by
  have hnn := Int.emod_nonneg v (Int.natCast_pos.mpr (Nat.pow_pos Nat.two_pos (n := b))).ne'
  rw [toUnsigned, toUnsigned, Int.toNat_of_nonneg hnn, ← Int.zero_sub, Int.sub_emod_emod, Int.zero_sub]
  rfl

theorem toSigned_toSigned {c : ℕ} (hb : b ≠ 0) (h : b ≤ c) (v : ℤ) : toSigned c (toSigned b v) = toSigned b v := by
  obtain ⟨hlo, hhi⟩ := toSigned_range hb v
  have hle : 2 ^ (b - 1) ≤ 2 ^ (c - 1) := Nat.pow_le_pow_right Nat.two_pos (by omega)
  exact toSigned_of_range (by omega) (by omega) (by omega)

theorem toSigned_add_left (b : ℕ) (v u : ℤ) : toSigned b (toSigned b v + u) = toSigned b (v + u) := Int.bmod_add_bmod

theorem toSigned_mul_left (b : ℕ) (v u : ℤ) : toSigned b (toSigned b v * u) = toSigned b (v * u) := Int.bmod_mul_bmod

theorem toUnsigned_magnitude (hb : b ≠ 0) (hlo : -(2 ^ (b - 1) : ℕ) ≤ v) (hhi : v < (2 ^ (b - 1) : ℕ)) :
    toUnsigned b (if v < 0 then -v else v) = v.natAbs := by
  have h := two_pow_half hb
  by_cases hv : v < 0
  · have hcast : (toUnsigned b (-v) : ℤ) = -v := toUnsigned_of_range (by omega) (by omega)
    rw [if_pos hv]
    omega
  · have hcast : (toUnsigned b v : ℤ) = v := toUnsigned_of_range (by omega) (by omega)
    rw [if_neg hv]
    omega

namespace CTypes

variable (T : CTypes)

theorem shortBits_ne : T.shortBits ≠ 0 := by
  have := T.short_ge
  omega

theorem intBits_ne : T.intBits ≠ 0 := by
  have := T.short_ge
  have := T.short_le
  omega

theorem longBits_ne : T.longBits ≠ 0 := by
  have := T.intBits_ne
  have := T.int_le
  omega

theorem intMax_ge : 32767 ≤ T.intMax := by
  have hbits : 15 ≤ T.intBits - 1 := by
    have := T.short_ge
    have := T.short_le
    omega
  have hle : 2 ^ 15 ≤ 2 ^ (T.intBits - 1) := Nat.pow_le_pow_right Nat.two_pos hbits
  unfold intMax
  omega

theorem toInt_range (v : ℤ) : -(T.intMax + 1 : ℤ) ≤ T.toInt v ∧ T.toInt v ≤ T.intMax := by
  have h := toSigned_range T.intBits_ne v
  have hpos : 0 < 2 ^ (T.intBits - 1) := Nat.pow_pos Nat.two_pos
  unfold intMax toInt
  omega

theorem toInt_of_range (hlo : -(T.intMax + 1 : ℤ) ≤ v) (hhi : v ≤ T.intMax) : T.toInt v = v := by
  have hpos : 0 < 2 ^ (T.intBits - 1) := Nat.pow_pos Nat.two_pos
  unfold intMax at hlo hhi
  exact toSigned_of_range T.intBits_ne (by omega) (by omega)

theorem toInt_zero : T.toInt 0 = 0 := T.toInt_of_range (by omega) (by omega)

theorem toInt_toInt (v : ℤ) : T.toInt (T.toInt v) = T.toInt v := toSigned_toSigned T.intBits_ne (Nat.le_refl _) v

theorem toLong_toInt (v : ℤ) : T.toLong (T.toInt v) = T.toInt v := toSigned_toSigned T.intBits_ne T.int_le v

theorem toLong_toLong (v : ℤ) : T.toLong (T.toLong v) = T.toLong v := toSigned_toSigned T.longBits_ne (Nat.le_refl _) v

/-- A machine with 16-bit `short`, and 32-bit `int` and `long`. -/
structure Bits32 : Prop where
  short : T.shortBits = 16
  int : T.intBits = 32
  long : T.longBits = 32

namespace Bits32

variable {T} (hT : T.Bits32)

include hT

theorem toShort_bounds (v : ℤ) : -32768 ≤ T.toShort v ∧ T.toShort v ≤ 32767 := by
  have h := toSigned_range T.shortBits_ne v
  rw [hT.short] at h
  unfold toShort
  rw [hT.short]
  omega

theorem toInt_bounds (v : ℤ) : -2147483648 ≤ T.toInt v ∧ T.toInt v ≤ 2147483647 := by
  have h := toSigned_range T.intBits_ne v
  rw [hT.int] at h
  unfold toInt
  rw [hT.int]
  omega

theorem toLong_bounds (v : ℤ) : -2147483648 ≤ T.toLong v ∧ T.toLong v ≤ 2147483647 := by
  have h := toSigned_range T.longBits_ne v
  rw [hT.long] at h
  unfold toLong
  rw [hT.long]
  omega

theorem toUShort_lt (v : ℤ) : T.toUShort v < 2 ^ 16 := hT.short ▸ toUnsigned_lt T.shortBits v

theorem toUInt_lt (v : ℤ) : T.toUInt v < 2 ^ 32 := hT.int ▸ toUnsigned_lt T.intBits v

theorem toULong_lt (v : ℤ) : T.toULong v < 2 ^ 32 := hT.long ▸ toUnsigned_lt T.longBits v

theorem toShort_eq (hlo : -32768 ≤ v) (hhi : v ≤ 32767) : T.toShort v = v := by
  refine toSigned_of_range T.shortBits_ne ?_ ?_ <;> rw [hT.short] <;> omega

theorem toInt_eq (hlo : -2147483648 ≤ v) (hhi : v ≤ 2147483647) : T.toInt v = v := by
  refine toSigned_of_range T.intBits_ne ?_ ?_ <;> rw [hT.int] <;> omega

end Bits32

end CTypes

end Bertos
