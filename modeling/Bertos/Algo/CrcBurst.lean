import Bertos.Algo.CrcCcitt
import Bertos.Boot.Crc32

/-!
# CRC-CCITT detects bursts

The table does eight steps of the reflected register at once, so that the CRC is one of `Crc.feed`.
-/

namespace Bertos

open List

def crcCcittPoly : BitVec 16 := 0x8408

theorem crcCcittTab_eq : crcCcittTab =
    (List.range 256).map fun i => ⟨Crc.feed crcCcittPoly (BitVec.ofNat 16 i) (List.replicate 8 false)⟩ := by
  decide +kernel

/-- A table step of the CCITT sum feeds the register eight bits. -/
theorem updcrcCcitt_feed (c : UInt16) (p : UInt8) :
    (updcrcCcitt p c).toBitVec = Crc.feed crcCcittPoly c.toBitVec (Crc.lows 8 p.toBitVec) := by
  obtain ⟨y, hy⟩ : ∃ y, y = (c ^^^ p.toUInt16).toUInt8 := ⟨_, rfl⟩
  have hidx : ((c ^^^ p.toUInt16) &&& 0xff).toNat = y.toNat := by
    rw [UInt16.toNat_and, hy, UInt16.toNat_toUInt8]
    exact Nat.and_two_pow_sub_one_eq_mod _ 8
  have htab : (crcCcittTab.getD y.toNat 0).toBitVec =
      Crc.feed crcCcittPoly (y.toBitVec.setWidth 16) (replicate 8 false) := by
    rw [crcCcittTab_eq, getD_eq_getElem?_getD, getElem?_map, getElem?_range y.toNat_lt]
    exact congrArg (Crc.feed _ · _) (BitVec.ofNat_toNat 16 y.toBitVec)
  have hshift : (c >>> 8).toBitVec = c.toBitVec >>> 8 := rfl
  rw [updcrcCcitt, hidx, UInt16.toBitVec_xor, htab, hshift]
  refine (Crc.feed_table crcCcittPoly c.toBitVec _ _ (map_congr_left fun i hi => ?_) ?_).symm
  · have hi := mem_range.mp hi
    simp [hy, hi, show i < 16 by omega]
  · refine BitVec.eq_of_getLsbD_eq fun i _ => ?_
    simp

theorem crcCcitt_feed (bs : List UInt8) (c : UInt16) :
    (crcCcitt c bs).toBitVec = Crc.feed crcCcittPoly c.toBitVec (messageBits bs) := by
  induction bs generalizing c with
  | nil => rfl
  | cons b bs ih => exact (ih _).trans (by rw [updcrcCcitt_feed, messageBits_cons, Crc.feed_append])

/-- **Bursts are detected**: two messages of one length that differ only within 16 consecutive bits have
different CRCs. -/
theorem crcCcitt_burst (c : UInt16) {bs cs : List UInt8} (hlen : bs.length = cs.length) (hne : bs ≠ cs) (i : ℕ)
    (hout : ∀ j, (messageBits bs)[j]? ≠ (messageBits cs)[j]? → i ≤ j ∧ j < i + 16) :
    crcCcitt c bs ≠ crcCcitt c cs := by
  intro h
  have hfeed := congrArg UInt16.toBitVec h
  rw [crcCcitt_feed, crcCcitt_feed] at hfeed
  refine Crc.feed_burst (by decide) _ ?_ (fun hb => hne (messageBits_injective hb hlen)) i hout hfeed
  rw [messageBits_length, messageBits_length, hlen]

theorem crcCcitt_burst_border : crcCcitt 5 [0x80, 0x01] ≠ crcCcitt 5 [0x00, 0x00] :=
  crcCcitt_burst 5 rfl (by decide) 0 fun j hj => ⟨Nat.zero_le j, by
    by_contra hend
    exact hj (by rw [getElem?_eq_none (Nat.le_of_not_lt hend), getElem?_eq_none (Nat.le_of_not_lt hend)])⟩

end Bertos
