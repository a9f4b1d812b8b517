import Mathlib.Algebra.CharP.Two
import Mathlib.Algebra.Field.ZMod
import Mathlib.Algebra.GroupWithZero.Units.Basic
import Mathlib.Data.ZMod.Basic
import Mathlib.RingTheory.AdjoinRoot
import Mathlib.Tactic.LinearCombination

/-!
# Blocks as elements of a binary field

A block of bytes is a polynomial over GF(2): its bits are the coefficients, the first bit of the first byte being the
highest one. Modulo `X ^ n + r`, for a small polynomial `r`, blocks of `n` bits are the elements of a ring of `2 ^ n`
elements, the field GF(2ⁿ) where the modulus is irreducible. `elem` goes from blocks to this ring and `block` back
(`block_elem`); XOR is the addition (`bytePoly_xor`).
-/

namespace Gf2

open Polynomial

/-! ## Polynomials -/

/-- A bit as a coefficient. -/
def bit (b : Bool) : ZMod 2 := if b then 1 else 0

/-- Bit `i` of a byte. -/
def bitAt (b : UInt8) (i : ℕ) : Bool := b.toBitVec.getLsbD i

noncomputable def bytePoly (b : UInt8) : (ZMod 2)[X] := ∑ i ∈ Finset.range 8, C (bit (bitAt b i)) * X ^ i

noncomputable def poly : List UInt8 → (ZMod 2)[X]
  | [] => 0
  | b :: bs => bytePoly b * X ^ (8 * bs.length) + poly bs

section Bits

theorem bit_xor (a b : Bool) : bit (a ^^ b) = bit a + bit b := by
  cases a <;> cases b <;> decide

variable (a b : UInt8) (i : ℕ)

theorem bitAt_xor : bitAt (a ^^^ b) i = (bitAt a i ^^ bitAt b i) := by
  rw [bitAt, UInt8.toBitVec_xor, BitVec.getLsbD_xor]
  rfl

theorem coeff_bytePoly : (bytePoly b).coeff i = if i < 8 then bit (bitAt b i) else 0 := by
  rw [bytePoly, finsetSum_coeff]
  simp only [coeff_C_mul, coeff_X_pow, mul_ite, mul_one, mul_zero]
  rw [Finset.sum_ite_eq]
  simp only [Finset.mem_range]

theorem bytePoly_xor : bytePoly (a ^^^ b) = bytePoly a + bytePoly b := by
  ext i
  rw [coeff_add, coeff_bytePoly, coeff_bytePoly, coeff_bytePoly, bitAt_xor, bit_xor]
  split
  · rfl
  · rw [add_zero]

theorem bitAt_shl (x y : UInt8) (h : i < 8) :
    bitAt (x <<< 1 ||| y >>> 7) i = if i = 0 then bitAt y 7 else bitAt x (i - 1) := by
  interval_cases i <;> simp [bitAt]

/-- A byte shifted to the right, with the lowest bit of the one before. -/
theorem bitAt_shr (x y : UInt8) (h : i < 8) :
    bitAt (x >>> 1 ||| y <<< 7) i = if i = 7 then bitAt y 0 else bitAt x (i + 1) := by
  interval_cases i <;> simp [bitAt]

theorem bytePoly_shl (x y : UInt8) :
    bytePoly (x <<< 1 ||| y >>> 7) + C (bit (bitAt x 7)) * X ^ 8 = X * bytePoly x + C (bit (bitAt y 7)) := by
  have h := fun i (hi : i < 8) => bitAt_shl i x y hi
  simp only [bytePoly, Finset.sum_range_succ, Finset.sum_range_zero, h 0 (by decide), h 1 (by decide), h 2 (by decide),
    h 3 (by decide), h 4 (by decide), h 5 (by decide), h 6 (by decide), h 7 (by decide)]
  simp only [↓reduceIte, pow_zero, mul_one, zero_add, one_ne_zero, tsub_self, pow_one, OfNat.ofNat_ne_zero,
    Nat.add_one_sub_one]
  ring

theorem bytePoly_shr (x y : UInt8) :
    X * bytePoly (x >>> 1 ||| y <<< 7) + C (bit (bitAt x 0)) = bytePoly x + C (bit (bitAt y 0)) * X ^ 8 := by
  have h := fun i (hi : i < 8) => bitAt_shr i x y hi
  simp only [bytePoly, Finset.sum_range_succ, Finset.sum_range_zero, h 0 (by decide), h 1 (by decide), h 2 (by decide),
    h 3 (by decide), h 4 (by decide), h 5 (by decide), h 6 (by decide), h 7 (by decide)]
  simp only [OfNat.zero_ne_ofNat, ↓reduceIte, zero_add, pow_zero, mul_one, OfNat.one_ne_ofNat, Nat.reduceAdd, pow_one,
    Nat.reduceEqDiff]
  ring

end Bits

/-! ## Blocks -/

section Blocks

variable {a b : List UInt8}

theorem coeff_poly_eq_zero (bs : List UInt8) {i : ℕ} (h : 8 * bs.length ≤ i) : (poly bs).coeff i = 0 := by
  induction bs with
  | nil => rfl
  | cons b bs ih =>
    rw [List.length_cons] at h
    rw [poly, coeff_add, coeff_mul_X_pow', if_pos (by omega), coeff_bytePoly, if_neg (by omega), ih (by omega),
      add_zero]

theorem degree_poly_lt (bs : List UInt8) : (poly bs).degree < (8 * bs.length : ℕ) :=
  (degree_lt_iff_coeff_zero _ _).mpr fun _ h => coeff_poly_eq_zero bs h

/-- Lists of one length are told apart by their polynomials. -/
theorem poly_injective (hlen : a.length = b.length) (h : poly a = poly b) : a = b := by
  induction a generalizing b with
  | nil => exact (List.length_eq_zero_iff.mp hlen.symm).symm
  | cons x a ih =>
    cases b with
    | nil => cases hlen
    | cons y b =>
      rw [List.length_cons, List.length_cons, Nat.add_right_cancel_iff] at hlen
      -- the coefficients from `8 * a.length` on are those of the first byte
      have hcoeff : ∀ i, (bytePoly x).coeff i = (bytePoly y).coeff i := by
        intro i
        have hi := congrArg (fun p => p.coeff (i + 8 * a.length)) h
        simp only [poly, coeff_add, hlen] at hi
        rwa [coeff_mul_X_pow, coeff_mul_X_pow, coeff_poly_eq_zero a (by omega), coeff_poly_eq_zero b (by omega),
          add_zero, add_zero] at hi
      have hbits : ∀ i, i < 8 → bitAt x i = bitAt y i := by
        intro i hi
        have hc := hcoeff i
        rw [coeff_bytePoly, coeff_bytePoly, if_pos hi, if_pos hi] at hc
        revert hc
        cases bitAt x i <;> cases bitAt y i <;> decide
      have hxy : x = y := UInt8.toBitVec_inj.mp (BitVec.eq_of_getLsbD_eq hbits)
      subst hxy
      rw [poly, poly, hlen] at h
      rw [ih hlen (add_left_cancel h)]

theorem poly_append (a b : List UInt8) : poly (a ++ b) = poly a * X ^ (8 * b.length) + poly b := by
  induction a with
  | nil => rw [List.nil_append, poly, zero_mul, zero_add]
  | cons x a ih =>
    rw [List.cons_append, poly, poly, ih, List.length_append, Nat.mul_add, pow_add]
    ring

end Blocks

/-! ## The ring -/

/-- The modulus `X ^ n + r`. -/
noncomputable def modulus (n : ℕ) (r : UInt8) : (ZMod 2)[X] := X ^ n + bytePoly r

section Ring

variable (len : ℕ) (r : UInt8)

/-- The polynomials modulo `X ^ (8 * len) + r`. -/
abbrev Gf : Type := AdjoinRoot (modulus (8 * len) r)

/-- The element `u`, the class of `X`. -/
noncomputable def u : Gf len r := AdjoinRoot.root _

noncomputable def elem (bs : List UInt8) : Gf len r := AdjoinRoot.mk _ (poly bs)

open Classical in
noncomputable def block (x : Gf len r) : List UInt8 :=
  if h : ∃ bs : List UInt8, bs.length = len ∧ elem len r bs = x then h.choose else []

variable {len r}

theorem degree_modulus (hlen : 2 ≤ len) : (modulus (8 * len) r).degree = (8 * len : ℕ) := by
  have hsmall : (bytePoly r).degree < (8 * len : ℕ) := by
    refine (degree_lt_iff_coeff_zero _ _).mpr fun i hi => ?_
    rw [coeff_bytePoly, if_neg (by omega)]
  rw [modulus, degree_add_eq_left_of_degree_lt (by rw [degree_X_pow]; exact hsmall), degree_X_pow]

theorem elem_injective (hlen : 2 ≤ len) {a b : List UInt8} (ha : a.length = len) (hb : b.length = len)
    (h : elem len r a = elem len r b) : a = b := by
  have hdvd : modulus (8 * len) r ∣ poly a - poly b := AdjoinRoot.mk_eq_mk.mp h
  have hda := degree_poly_lt a
  have hdb := degree_poly_lt b
  rw [ha] at hda
  rw [hb] at hdb
  have hdeg : (poly a - poly b).degree < (modulus (8 * len) r).degree := by
    rw [degree_modulus hlen]
    exact lt_of_le_of_lt (degree_sub_le _ _) (max_lt hda hdb)
  exact poly_injective (ha.trans hb.symm) (sub_eq_zero.mp (eq_zero_of_dvd_of_degree_lt hdvd hdeg))

theorem block_elem (hlen : 2 ≤ len) {bs : List UInt8} (hbs : bs.length = len) : block len r (elem len r bs) = bs := by
  have hex : ∃ bs' : List UInt8, bs'.length = len ∧ elem len r bs' = elem len r bs := ⟨bs, hbs, rfl⟩
  rw [block, dif_pos hex]
  exact elem_injective hlen hex.choose_spec.1 hbs hex.choose_spec.2

theorem mk_X_pow : AdjoinRoot.mk (modulus (8 * len) r) (X ^ (8 * len)) = AdjoinRoot.mk _ (bytePoly r) := by
  rw [AdjoinRoot.mk_eq_mk]
  have hsub : (X ^ (8 * len) - bytePoly r : (ZMod 2)[X]) = modulus (8 * len) r := by
    rw [CharTwo.sub_eq_add, modulus]
  rw [hsub]

/-- `u` can be divided by where the modulus has a constant term. -/
theorem isUnit_u (hlen : 0 < len) (hr : bitAt r 0 = true) : IsUnit (u len r) := by
  -- the modulus is `X * (X ^ (8 * len - 1) + q) + 1`
  obtain ⟨q, hq⟩ : ∃ q, bytePoly r = X * q + 1 := by
    have h := bytePoly_shr r 0
    have hone : C (bit (bitAt r 0)) = 1 := by rw [hr, bit, if_pos rfl, C_1]
    have hzero : C (bit (bitAt 0 0)) * X ^ 8 = 0 := by
      rw [show bitAt 0 0 = false from rfl, bit, if_neg Bool.false_ne_true, C_0, zero_mul]
    rw [hone, hzero, add_zero] at h
    exact ⟨_, h.symm⟩
  have hmk : AdjoinRoot.mk (modulus (8 * len) r) (X * (X ^ (8 * len - 1) + q)) = 1 := by
    rw [mul_add, ← pow_succ', show 8 * len - 1 + 1 = 8 * len by omega, map_add, mk_X_pow, ← map_add, hq,
      add_right_comm, CharTwo.add_self_eq_zero, zero_add, map_one]
  rw [map_mul, AdjoinRoot.mk_X] at hmk
  exact IsUnit.of_mul_eq_one _ hmk

end Ring

end Gf2
