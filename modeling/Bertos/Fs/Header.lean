import Bertos.Lib.Bytes
import Bertos.Algo.RotatingHash

/-!
# BattFS page headers (`bertos/fs/battfs.c`)

A page of a BattFS disk carries a 12-byte header behind its data: the inode and the page offset that the page belongs
to, the number of bytes in use, a 40-bit sequence number and a 16-bit checksum of the rest. `battfsToDisk` and
`diskToBattfs` are the codec; `HdrValid` is the test of the checksum. A change of one byte is always detected
(`header_codec_faithful`), a write that was cut (`tornHeader`) unless the bytes up to the cut have the same hash
(`hdrValid_torn_iff`).
-/

namespace Bertos

open List

structure BattFsPageHeader where
  inode : ℕ
  fill : ℕ
  pgoff : ℕ
  seq : ℕ
  fcs : ℕ
  deriving DecidableEq

/-- The length of a header on disk, `BATTFS_HEADER_LEN`. -/
def battfsHeaderLen : ℕ := 12

/-! ## The codec -/

/-- The header without its checksum, as stored. -/
def hdrBody (hdr : BattFsPageHeader) : List UInt8 :=
  leBytesOf 1 hdr.inode ++ leBytesOf 2 hdr.fill ++ leBytesOf 2 hdr.pgoff ++ leBytesOf 5 hdr.seq

/-- Convert from memory representation to disk structure. -/
def battfsToDisk (hdr : BattFsPageHeader) : List UInt8 :=
  hdrBody hdr ++ leBytesOf 2 hdr.fcs

/-- Convert from disk structure to memory representation. -/
def diskToBattfs (buf : List UInt8) : BattFsPageHeader where
  inode := leNat (buf.take 1)
  fill := leNat ((buf.drop 1).take 2)
  pgoff := leNat ((buf.drop 3).take 2)
  seq := leNat ((buf.drop 5).take 5)
  fcs := leNat ((buf.drop 10).take 2)

/-- Compute the fcs of the header: over all bytes but the last two. -/
def computeFcs (hdr : BattFsPageHeader) : ℕ :=
  (rotatingUpdate ((battfsToDisk hdr).take (battfsHeaderLen - 2)) rotatingInit).toNat

def HdrValid (hdr : BattFsPageHeader) : Prop :=
  hdr.fcs = computeFcs hdr

instance (hdr : BattFsPageHeader) : Decidable (HdrValid hdr) :=
  inferInstanceAs (Decidable (_ = _))

@[simp] theorem length_battfsToDisk (hdr : BattFsPageHeader) : (battfsToDisk hdr).length = 12 := by
  simp [battfsToDisk, hdrBody]

/-! ## Valid headers -/

variable {bs : List UInt8}

theorem battfsToDisk_diskToBattfs (h : bs.length = battfsHeaderLen) : battfsToDisk (diskToBattfs bs) = bs := by
  match bs, h with
  | [a, b, c, d, e, f, g, i, j, k, l, m], _ =>
    have htwo : ∀ x y, leBytesOf 2 (leNat [x, y]) = [x, y] := fun x y => leBytesOf_leNat [x, y]
    have hone : leBytesOf 1 (leNat [a]) = [a] := leBytesOf_leNat [a]
    have hfive : leBytesOf 5 (leNat [f, g, i, j, k]) = [f, g, i, j, k] := leBytesOf_leNat [f, g, i, j, k]
    simp only [battfsToDisk, hdrBody, diskToBattfs, take_succ_cons, take_zero, drop_succ_cons,
      drop_zero, hone, htwo, hfive, cons_append, nil_append]

/-- The bytes of a header with a right checksum. -/
theorem hdrValid_iff (h : bs.length = battfsHeaderLen) :
    HdrValid (diskToBattfs bs) ↔ leNat (bs.drop 10) = (rotatingUpdate (bs.take 10) rotatingInit).toNat := by
  have hdrop : (bs.drop 10).length ≤ 2 := by
    rw [length_drop, h]
    decide
  unfold HdrValid computeFcs
  rw [battfsToDisk_diskToBattfs h, show (diskToBattfs bs).fcs = leNat ((bs.drop 10).take 2) from rfl,
    take_of_length_le hdrop]
  rfl

/-- The header as `writeHdr` stores it. -/
def BattFsPageHeader.sealed (hdr : BattFsPageHeader) : BattFsPageHeader :=
  { hdr with fcs := computeFcs hdr }

/-! ## Torn headers -/

/-- The header found when the write of a new one was cut after `cut` bytes. -/
def tornHeader (old new : List UInt8) (cut : ℕ) : List UInt8 := new.take cut ++ old.drop cut

section Torn
variable {old new : List UInt8} {cut : ℕ}

section
variable (ho : old.length = battfsHeaderLen) (hn : new.length = battfsHeaderLen)
include ho hn

theorem length_tornHeader : (tornHeader old new cut).length = battfsHeaderLen := by
  rw [tornHeader, length_append, length_take, length_drop]
  omega

/-- A cut in front of the checksum: the rest is hashed as before, so the header is valid if the hashes up to the cut are
the same. -/
theorem hdrValid_torn_iff (hold : HdrValid (diskToBattfs old)) (hcut : cut ≤ 10) :
    HdrValid (diskToBattfs (tornHeader old new cut)) ↔
      rotatingUpdate (new.take cut) rotatingInit = rotatingUpdate (old.take cut) rotatingInit := by
  have hlen : (new.take cut).length = cut := by rw [length_take, hn, battfsHeaderLen]; omega
  have hnew : (tornHeader old new cut).take 10 = new.take cut ++ (old.drop cut).take (10 - cut) := by
    rw [tornHeader, take_append, hlen, take_of_length_le (by omega)]
  have hsplit : old.take 10 = old.take cut ++ (old.drop cut).take (10 - cut) := by
    rw [← take_add, Nat.add_sub_cancel' hcut]
  have hfcs : (tornHeader old new cut).drop 10 = old.drop 10 := by
    rw [tornHeader, drop_append, hlen, drop_of_length_le (by omega), nil_append, drop_drop,
      Nat.add_sub_cancel' hcut]
  rw [hdrValid_iff ho, hsplit, rotatingUpdate_append] at hold
  rw [hdrValid_iff (length_tornHeader ho hn), hnew, hfcs, rotatingUpdate_append, hold, UInt16.toNat_inj, eq_comm]
  exact ⟨rotatingUpdate_inj _, congrArg _⟩

/-- A cut in the checksum: the header is the new one. -/
theorem eq_new_of_torn
    (hnew : HdrValid (diskToBattfs new)) (htorn : HdrValid (diskToBattfs (tornHeader old new cut))) (hcut : 10 ≤ cut) :
    tornHeader old new cut = new := by
  have hlen : (tornHeader old new cut).length = battfsHeaderLen := length_tornHeader ho hn
  have htake : (tornHeader old new cut).take 10 = new.take 10 := by
    rw [tornHeader, take_append_of_le_length (by rw [length_take, hn, battfsHeaderLen]; omega), take_take,
      Nat.min_eq_left hcut]
  rw [hdrValid_iff hlen, htake] at htorn
  rw [hdrValid_iff hn] at hnew
  have hdrop : (tornHeader old new cut).drop 10 = new.drop 10 :=
    leNat_inj (by rw [length_drop, length_drop, hlen, hn]) (htorn.trans hnew.symm)
  rw [← take_append_drop 10 (tornHeader old new cut), htake, hdrop, take_append_drop]

end

end Torn

/-! ## One byte changed -/

/-- A change of one byte is a torn write of the changed header, up to that byte or from the checksum on. -/
theorem set_eq_of_hdrValid {i : ℕ} {b : UInt8} (hlen : bs.length = battfsHeaderLen)
    (hv : HdrValid (diskToBattfs bs)) (hv' : HdrValid (diskToBattfs (bs.set i b))) : bs.set i b = bs := by
  have hlen' : (bs.set i b).length = battfsHeaderLen := length_set.trans hlen
  rcases Nat.lt_or_ge i 10 with hi | hi
  · have htorn : tornHeader bs (bs.set i b) (i + 1) = bs.set i b := by
      rw [tornHeader, ← drop_set_of_lt (Nat.lt_succ_self i), take_append_drop]
    have hib : i < bs.length := by rw [hlen, battfsHeaderLen]; omega
    have hhash := (hdrValid_torn_iff hlen hlen' hv hi).mp (htorn.symm ▸ hv')
    rw [take_add_one, take_add_one, take_set_of_le (Nat.le_refl i), getElem?_set_self hib,
      getElem?_eq_getElem hib, rotatingUpdate_append, rotatingUpdate_append] at hhash
    have hb := rotatingUpdate1_byte_inj hhash
    rw [hb, set_getElem_self]
  · have htorn : tornHeader (bs.set i b) bs 10 = bs.set i b := by
      rw [tornHeader, ← take_set_of_le hi, take_append_drop]
    rw [← htorn]
    exact eq_new_of_torn hlen' hlen hv (htorn.symm ▸ hv') (Nat.le_refl _)

/-- The values of the types of the fields. -/
structure BattFsPageHeader.Typed (hdr : BattFsPageHeader) : Prop where
  inode : hdr.inode < 256
  fill : hdr.fill < 65536
  pgoff : hdr.pgoff < 65536
  fcs : hdr.fcs < 65536

theorem BattFsPageHeader.Typed.decoded {hdr : BattFsPageHeader} (h : hdr.Typed) (hseq : hdr.seq < 1099511627776) :
    diskToBattfs (battfsToDisk hdr) = hdr := by
  have hfields : diskToBattfs (battfsToDisk hdr) =
      ⟨leNat (leBytesOf 1 hdr.inode), leNat (leBytesOf 2 hdr.fill), leNat (leBytesOf 2 hdr.pgoff),
        leNat (leBytesOf 5 hdr.seq), leNat (leBytesOf 2 hdr.fcs)⟩ := rfl
  rw [hfields, leNat_leBytesOf 1 h.inode, leNat_leBytesOf 2 h.fill, leNat_leBytesOf 2 h.pgoff, leNat_leBytesOf 5 hseq,
    leNat_leBytesOf 2 h.fcs]

/-- **The codec is faithful, and its checksum sees every change of one byte.** -/
theorem header_codec_faithful {hdr : BattFsPageHeader} (h : hdr.Typed) :
    (hdr.seq < 1099511627776 → diskToBattfs (battfsToDisk hdr) = hdr) ∧
      (HdrValid hdr → ∀ i b, i < battfsHeaderLen → (battfsToDisk hdr)[i]? ≠ some b →
        ¬ HdrValid (diskToBattfs ((battfsToDisk hdr).set i b))) := by
  refine ⟨h.decoded, fun hv i b hi hne hv' => hne ?_⟩
  have hlen : (battfsToDisk hdr).length = battfsHeaderLen := length_battfsToDisk hdr
  have hvalid : HdrValid (diskToBattfs (battfsToDisk hdr)) := by
    rw [hdrValid_iff hlen, show (battfsToDisk hdr).drop 10 = leBytesOf 2 hdr.fcs from rfl, leNat_leBytesOf 2 h.fcs]
    exact hv
  rw [← set_eq_of_hdrValid hlen hvalid hv', getElem?_set_self (by rw [hlen]; exact hi)]

theorem header_codec_faithful_page : ¬ HdrValid (diskToBattfs ((battfsToDisk ⟨1, 0, 256, 1, 1⟩).set 4 3)) :=
  (header_codec_faithful ⟨by decide, by decide, by decide, by decide⟩).2 (by decide) 4 3 (by decide) (by decide)

end Bertos
