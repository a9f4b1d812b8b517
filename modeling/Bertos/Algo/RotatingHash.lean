import Mathlib.Data.Int.Notation
import Mathlib.Tactic.Common
import Mathlib.Tactic.IntervalCases

/-!
# Rotating hash (`bertos/algo/rotating_hash.h`)

A step turns the hash by four bits and takes in a byte. Two messages of one length have the same hash exactly if the
halves of their differences cancel four bytes apart (`rotatingUpdate_eq_iff`).
-/

namespace Bertos

def rotatingInit : UInt16 := 0

def rotatingUpdate1 (rot : UInt16) (c : UInt8) : UInt16 :=
  (rot <<< 4) ^^^ (rot >>> 12) ^^^ c.toUInt16

def rotatingUpdate (bs : List UInt8) (rot : UInt16) : UInt16 :=
  bs.foldl rotatingUpdate1 rot

theorem rotatingUpdate_append (rot : UInt16) (bs bs' : List UInt8) :
    rotatingUpdate (bs ++ bs') rot = rotatingUpdate bs' (rotatingUpdate bs rot) :=
  List.foldl_append

/-- A step turns the hash by four bits, which can be undone. -/
theorem rotatingUpdate1_inj {rot rot' : UInt16} {c : UInt8} (h : rotatingUpdate1 rot c = rotatingUpdate1 rot' c) :
    rot = rot' := by
  have hturn : ∀ x : UInt16, (x <<< 4 ^^^ x >>> 12) >>> 4 ^^^ (x <<< 4 ^^^ x >>> 12) <<< 12 = x := by
    intro x
    apply UInt16.toBitVec_inj.mp
    apply BitVec.eq_of_getLsbD_eq
    intro i hi
    have hout : x.toBitVec.getLsbD (12 + (4 + i)) = false := BitVec.getLsbD_of_ge _ _ (by omega)
    rcases Nat.lt_or_ge i 12 with h | h
    · simp [h, hi, hout, show 4 + i < 16 by omega, show ¬ 4 + i < 4 by omega]
    · simp [hi, hout, Nat.not_lt.mpr h, show i - 12 < 4 by omega, show ¬ 4 + i < 16 by omega,
        show 12 + (i - 12) = i by omega]
  have hxor : rot <<< 4 ^^^ rot >>> 12 = rot' <<< 4 ^^^ rot' >>> 12 := (UInt16.xor_left_inj _).mp h
  rw [← hturn rot, hxor, hturn]

theorem rotatingUpdate1_byte_inj {rot : UInt16} {c c' : UInt8} (h : rotatingUpdate1 rot c = rotatingUpdate1 rot c') :
    c = c' := by
  have hword : c.toUInt16 = c'.toUInt16 := (UInt16.xor_right_inj _).mp h
  have hnat := congrArg UInt16.toNat hword
  rw [UInt8.toNat_toUInt16, UInt8.toNat_toUInt16] at hnat
  exact UInt8.toNat_inj.mp hnat

theorem rotatingUpdate_inj {rot rot' : UInt16} (bs : List UInt8) (h : rotatingUpdate bs rot = rotatingUpdate bs rot') :
    rot = rot' := by
  induction bs generalizing rot rot' with
  | nil => exact h
  | cons b bs ih => exact rotatingUpdate1_inj (ih h)

/-- Two hashes differ after a step by what they differed by, turned, and by the difference of the bytes. -/
theorem rotatingUpdate1_xor (r r' : UInt16) (b b' : UInt8) :
    rotatingUpdate1 r b ^^^ rotatingUpdate1 r' b' = rotatingUpdate1 (r ^^^ r') (b ^^^ b') := by
  simp only [rotatingUpdate1, UInt16.shiftLeft_xor, UInt16.shiftRight_xor, UInt8.toUInt16_xor]
  ac_rfl

/-- The exclusive or of the bytes at the positions `p`, `p + 4`, `p + 8`, … -/
def lane : List UInt8 → ℕ → UInt8
  | [], _ => 0
  | b :: bs, 0 => b ^^^ lane bs 3
  | _ :: bs, p + 1 => lane bs p

/-- The hash that the bytes take to 0: the bytes at the positions `p`, `p + 4`, … turned back `p + 1` times. -/
def turnedBack (bs : List UInt8) : UInt16 :=
  (lane bs 0).toUInt16 >>> 4 ^^^ (lane bs 0).toUInt16 <<< 12 ^^^ (lane bs 1).toUInt16 <<< 8 ^^^
    (lane bs 2).toUInt16 <<< 4 ^^^ (lane bs 3).toUInt16

theorem rotatingUpdate1_turnedBack (b : UInt8) (bs : List UInt8) :
    rotatingUpdate1 (turnedBack (b :: bs)) b = turnedBack bs := by
  simp only [rotatingUpdate1, turnedBack, lane]
  generalize lane bs 0 = l0, lane bs 1 = l1, lane bs 2 = l2, lane bs 3 = l3
  apply UInt16.toBitVec_inj.mp
  apply BitVec.eq_of_getLsbD_eq
  intro i hi
  interval_cases i <;> simp [Bool.xor_comm, Bool.xor_left_comm]

theorem rotatingUpdate_eq_zero_iff (bs : List UInt8) (r : UInt16) : rotatingUpdate bs r = 0 ↔ r = turnedBack bs := by
  induction bs generalizing r with
  | nil => rfl
  | cons b bs ih =>
    refine (ih _).trans ⟨fun h => ?_, fun h => ?_⟩
    · exact rotatingUpdate1_inj (h.trans (rotatingUpdate1_turnedBack b bs).symm)
    · rw [h, rotatingUpdate1_turnedBack]

theorem rotatingUpdate_xor {bs bs' : List UInt8} (h : bs.length = bs'.length) (r r' : UInt16) :
    rotatingUpdate bs r ^^^ rotatingUpdate bs' r' = rotatingUpdate (bs.zipWith (· ^^^ ·) bs') (r ^^^ r') := by
  induction bs generalizing bs' r r' with
  | nil =>
    rw [List.length_eq_zero_iff.mp h.symm]
    rfl
  | cons b bs ih =>
    obtain _ | ⟨b', bs'⟩ := bs'
    · simp at h
    · refine (ih (Nat.succ_inj.mp h) _ _).trans ?_
      rw [rotatingUpdate1_xor]
      rfl

/-- The low halves of the bytes at the positions `p`, `p + 4`, … against the high halves one position on. -/
def Cancels (bs : List UInt8) : Prop :=
  ∀ p < 4, lane bs p &&& (15 : UInt8) = lane bs ((p + 1) % 4) >>> (4 : UInt8)

instance (bs : List UInt8) : Decidable (Cancels bs) :=
  Nat.decidableBallLT _ _

/-- A low half equals a high half if their four bits do. -/
theorem low_eq_high_iff (l l' : UInt8) :
    l &&& (15 : UInt8) = l' >>> (4 : UInt8) ↔ ∀ i < 4, l.toBitVec.getLsbD i = l'.toBitVec.getLsbD (i + 4) := by
  rw [← UInt8.toBitVec_inj, BitVec.eq_of_getLsbD_eq_iff]
  constructor
  · intro h i hi
    have hb := h i (by omega)
    interval_cases i <;> simpa using hb
  · intro h i hi
    rcases Nat.lt_or_ge i 4 with hlow | hhigh
    · have hb := h i hlow
      interval_cases i <;> simpa using hb
    · interval_cases i <;> simp

/-- Each half byte of `turnedBack` is the exclusive or of a low half and the high half one position on. -/
theorem getLsbD_turnedBack (bs : List UInt8) {p i : ℕ} (hp : p < 4) (hi : i < 4) :
    (turnedBack bs).toBitVec.getLsbD (4 * (3 - p) + i) =
      ((lane bs p).toBitVec.getLsbD i ^^ (lane bs ((p + 1) % 4)).toBitVec.getLsbD (i + 4)) := by
  unfold turnedBack
  rcases Nat.lt_or_ge p 3 with h | h
  · interval_cases p <;> interval_cases i <;> simp
  · obtain rfl : p = 3 := by omega
    rw [Bool.xor_comm]
    interval_cases i <;> simp

/-- The turned-back difference vanishes exactly when the lanes cancel. -/
theorem turnedBack_eq_zero_iff (bs : List UInt8) : turnedBack bs = 0 ↔ Cancels bs := by
  unfold Cancels
  simp only [low_eq_high_iff]
  constructor
  · intro h p hp i hi
    have hb := getLsbD_turnedBack bs hp hi
    rw [h, UInt16.toBitVec_zero, BitVec.getLsbD_zero] at hb
    exact bne_eq_false_iff_eq.mp hb.symm
  · intro h
    refine UInt16.toBitVec_inj.mp (BitVec.eq_of_getLsbD_eq fun k hk => ?_)
    -- bit `k` is in the half byte of the position `3 - k / 4`
    have hp : 3 - k / 4 < 4 := by omega
    have hi : k % 4 < 4 := Nat.mod_lt k (by decide)
    have hb := getLsbD_turnedBack bs hp hi
    rw [h _ hp _ hi, Bool.xor_self, show 4 * (3 - (3 - k / 4)) + k % 4 = k by omega] at hb
    rw [hb, UInt16.toBitVec_zero, BitVec.getLsbD_zero]

/-- **When two hashes are the same.** -/
theorem rotatingUpdate_eq_iff {bs bs' : List UInt8} (h : bs.length = bs'.length) :
    rotatingUpdate bs rotatingInit = rotatingUpdate bs' rotatingInit ↔ Cancels (bs.zipWith (· ^^^ ·) bs') := by
  rw [← UInt16.xor_eq_zero_iff, rotatingUpdate_xor h, UInt16.xor_self, rotatingUpdate_eq_zero_iff, eq_comm,
    turnedBack_eq_zero_iff]

end Bertos
