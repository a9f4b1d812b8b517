import Mathlib.Data.Nat.Notation
import Mathlib.Tactic.Common

/-!
# Bits of a byte

A byte as a set of bits: `hasBit x i` reads bit `i`, and the operations of a mask are those of sets. A mask test
`x &&& y ≠ 0` says that the two sets have a bit in common (`and_ne_zero_iff`).
-/

namespace Bertos

theorem forall_uint8 {P : UInt8 → Prop} (h : ∀ n : Fin 256, P (UInt8.ofNat n.val)) (c : UInt8) : P c := by
  have hc := h ⟨c.toNat, c.toNat_lt⟩
  rwa [UInt8.ofNat_toNat] at hc

/-- Bit `i` of a byte. -/
def hasBit (x : UInt8) (i : ℕ) : Bool :=
  x.toBitVec.getLsbD i

variable (x y : UInt8) (i : ℕ)

@[simp] theorem hasBit_zero : hasBit 0 i = false := by
  simp [hasBit]

@[simp] theorem hasBit_or : hasBit (x ||| y) i = (hasBit x i || hasBit y i) := by
  simp [hasBit]

@[simp] theorem hasBit_and : hasBit (x &&& y) i = (hasBit x i && hasBit y i) := by
  simp [hasBit]

theorem hasBit_and_not : hasBit (x &&& ~~~y) i = (hasBit x i && !hasBit y i) := by
  rcases Nat.lt_or_ge i 8 with hi | hi
  · simp [hasBit, hi]
  · simp [hasBit, BitVec.getLsbD_of_ge _ _ hi]

variable {x y}

theorem byte_ext (h : ∀ i, hasBit x i = hasBit y i) : x = y :=
  UInt8.toBitVec_inj.mp (BitVec.eq_of_getLsbD_eq fun i _ => h i)

theorem ne_zero_iff : x ≠ 0 ↔ ∃ i, hasBit x i = true := by
  constructor
  · intro h
    by_contra hne
    refine h (byte_ext fun i => ?_)
    simpa using fun hi => hne ⟨i, hi⟩
  · rintro ⟨i, hi⟩ rfl
    simp at hi

theorem and_ne_zero_iff : x &&& y ≠ 0 ↔ ∃ i, hasBit x i = true ∧ hasBit y i = true := by
  simp [ne_zero_iff]

end Bertos
