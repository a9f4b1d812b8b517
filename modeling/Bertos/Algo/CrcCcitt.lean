import Mathlib.Data.Int.Notation
import Mathlib.Tactic.Common

/-!
# CRC-CCITT (`bertos/algo/crc_ccitt.c`)

`crcCcitt_tail`: a message that ends with the complement of its own CRC, low byte first, has always the same CRC.
-/

namespace Bertos

open BitVec

def crcCcittTab : List UInt16 :=
  [0x0000, 0x1189, 0x2312, 0x329b, 0x4624, 0x57ad, 0x6536, 0x74bf, 0x8c48, 0x9dc1, 0xaf5a, 0xbed3,
    0xca6c, 0xdbe5, 0xe97e, 0xf8f7, 0x1081, 0x0108, 0x3393, 0x221a, 0x56a5, 0x472c, 0x75b7, 0x643e,
    0x9cc9, 0x8d40, 0xbfdb, 0xae52, 0xdaed, 0xcb64, 0xf9ff, 0xe876, 0x2102, 0x308b, 0x0210, 0x1399,
    0x6726, 0x76af, 0x4434, 0x55bd, 0xad4a, 0xbcc3, 0x8e58, 0x9fd1, 0xeb6e, 0xfae7, 0xc87c, 0xd9f5,
    0x3183, 0x200a, 0x1291, 0x0318, 0x77a7, 0x662e, 0x54b5, 0x453c, 0xbdcb, 0xac42, 0x9ed9, 0x8f50,
    0xfbef, 0xea66, 0xd8fd, 0xc974, 0x4204, 0x538d, 0x6116, 0x709f, 0x0420, 0x15a9, 0x2732, 0x36bb,
    0xce4c, 0xdfc5, 0xed5e, 0xfcd7, 0x8868, 0x99e1, 0xab7a, 0xbaf3, 0x5285, 0x430c, 0x7197, 0x601e,
    0x14a1, 0x0528, 0x37b3, 0x263a, 0xdecd, 0xcf44, 0xfddf, 0xec56, 0x98e9, 0x8960, 0xbbfb, 0xaa72,
    0x6306, 0x728f, 0x4014, 0x519d, 0x2522, 0x34ab, 0x0630, 0x17b9, 0xef4e, 0xfec7, 0xcc5c, 0xddd5,
    0xa96a, 0xb8e3, 0x8a78, 0x9bf1, 0x7387, 0x620e, 0x5095, 0x411c, 0x35a3, 0x242a, 0x16b1, 0x0738,
    0xffcf, 0xee46, 0xdcdd, 0xcd54, 0xb9eb, 0xa862, 0x9af9, 0x8b70, 0x8408, 0x9581, 0xa71a, 0xb693,
    0xc22c, 0xd3a5, 0xe13e, 0xf0b7, 0x0840, 0x19c9, 0x2b52, 0x3adb, 0x4e64, 0x5fed, 0x6d76, 0x7cff,
    0x9489, 0x8500, 0xb79b, 0xa612, 0xd2ad, 0xc324, 0xf1bf, 0xe036, 0x18c1, 0x0948, 0x3bd3, 0x2a5a,
    0x5ee5, 0x4f6c, 0x7df7, 0x6c7e, 0xa50a, 0xb483, 0x8618, 0x9791, 0xe32e, 0xf2a7, 0xc03c, 0xd1b5,
    0x2942, 0x38cb, 0x0a50, 0x1bd9, 0x6f66, 0x7eef, 0x4c74, 0x5dfd, 0xb58b, 0xa402, 0x9699, 0x8710,
    0xf3af, 0xe226, 0xd0bd, 0xc134, 0x39c3, 0x284a, 0x1ad1, 0x0b58, 0x7fe7, 0x6e6e, 0x5cf5, 0x4d7c,
    0xc60c, 0xd785, 0xe51e, 0xf497, 0x8028, 0x91a1, 0xa33a, 0xb2b3, 0x4a44, 0x5bcd, 0x6956, 0x78df,
    0x0c60, 0x1de9, 0x2f72, 0x3efb, 0xd68d, 0xc704, 0xf59f, 0xe416, 0x90a9, 0x8120, 0xb3bb, 0xa232,
    0x5ac5, 0x4b4c, 0x79d7, 0x685e, 0x1ce1, 0x0d68, 0x3ff3, 0x2e7a, 0xe70e, 0xf687, 0xc41c, 0xd595,
    0xa12a, 0xb0a3, 0x8238, 0x93b1, 0x6b46, 0x7acf, 0x4854, 0x59dd, 0x2d62, 0x3ceb, 0x0e70, 0x1ff9,
    0xf78f, 0xe606, 0xd49d, 0xc514, 0xb1ab, 0xa022, 0x92b9, 0x8330, 0x7bc7, 0x6a4e, 0x58d5, 0x495c,
    0x3de3, 0x2c6a, 0x1ef1, 0x0f78]

def updcrcCcitt (c : UInt8) (oldcrc : UInt16) : UInt16 :=
  (oldcrc >>> 8) ^^^ crcCcittTab.getD ((oldcrc ^^^ c.toUInt16) &&& 0xff).toNat 0

def crcCcittInitVal : UInt16 := 0xFFFF

/-- The CRC of a list of bytes, from the value `crc` on. -/
def crcCcitt (crc : UInt16) (buf : List UInt8) : UInt16 := buf.foldl (fun crc c => updcrcCcitt c crc) crc

theorem crcCcitt_append (crc : UInt16) (bs bs' : List UInt8) :
    crcCcitt crc (bs ++ bs') = crcCcitt (crcCcitt crc bs) bs' :=
  List.foldl_append

section Residue

variable (crc : UInt16)

/-- The two bytes that are sent, the low one first. -/
def crcTail : List UInt8 := [(crc &&& 0xff).toUInt8 ^^^ 0xff, (crc >>> 8).toUInt8 ^^^ 0xff]

theorem testBit_ff (i : ℕ) : Nat.testBit 255 i = decide (i < 8) := Nat.testBit_two_pow_sub_one 8 i

theorem mask_index (t : UInt16) : ((crc ^^^ t) ^^^ (crc.toUInt8 ^^^ 0xff).toUInt16) &&& 0xff =
    (t ^^^ 0xff) &&& 0xff := by
  apply UInt16.toBitVec_inj.mp
  apply eq_of_getLsbD_eq
  intro i hi
  simp only [UInt16.toBitVec_and, UInt16.toBitVec_xor, UInt8.toBitVec_toUInt16, UInt8.toBitVec_xor,
    UInt16.toBitVec_toUInt8, UInt16.toBitVec_ofNat, UInt8.toBitVec_ofNat, getLsbD_and, getLsbD_xor,
    getLsbD_setWidth, getLsbD_ofNat, testBit_ff]
  rcases Nat.lt_or_ge i 8 with h | h
  · generalize crc.toBitVec.getLsbD i = x
    generalize t.toBitVec.getLsbD i = y
    simp only [h, hi, decide_true, Bool.true_and, Bool.and_true]
    cases x <;> cases y <;> rfl
  · simp [Nat.not_lt.mpr h]

theorem low_index : (crc ^^^ ((crc &&& 0xff).toUInt8 ^^^ 0xff).toUInt16) &&& 0xff = 0xff := by
  have hlow : (crc &&& 0xff).toUInt8 = crc.toUInt8 := (UInt16.toUInt8_and ..).trans UInt8.and_neg_one
  simpa [hlow] using mask_index crc 0

theorem shift_high (t : UInt16) : ((crc >>> 8) ^^^ t) >>> 8 = t >>> 8 := by
  apply UInt16.toBitVec_inj.mp
  apply eq_of_getLsbD_eq
  intro i hi
  have hout : crc.toBitVec.getLsbD (8 + (8 + i)) = false := getLsbD_of_ge _ _ (by omega)
  simp [hout]

/-- **The residue.** -/
theorem crcCcitt_tail : crcCcitt crc (crcTail crc) = 0xF0B8 := by
  have hfst : updcrcCcitt ((crc &&& 0xff).toUInt8 ^^^ 0xff) crc = (crc >>> 8) ^^^ 0x0f78 := by
    rw [updcrcCcitt, low_index]
    rfl
  have hsnd : updcrcCcitt ((crc >>> 8).toUInt8 ^^^ 0xff) ((crc >>> 8) ^^^ 0x0f78) = 0xF0B8 := by
    rw [updcrcCcitt, mask_index, shift_high]
    decide +kernel
  simp only [crcCcitt, crcTail, List.foldl_cons, List.foldl_nil, hfst, hsnd]

end Residue

end Bertos
