import Bertos.Io.KBlockView
import Bertos.Io.KFileBlock
import Bertos.Lib.CTypes

/-!
# A file over a block device is flat

The bytes of a device, block after block, are its `flatView`. Over a device without errors, with or without cache, a
`KFileBlock` is a file with these bytes: `kfileblock_flat`. Its position is a natural number here and a `kfile_off_t` in
the source, of 32 bits with sign, so this needs a device of less than 2 GiB (`kfileblock_wraps`).
-/

namespace Bertos

open Mem

variable {σ : Type}

/-- A position as it is kept in a `kfile_off_t`. -/
def kfileOff (pos : ℕ) : ℤ := toSigned 32 pos

/-- Positions below 2 GiB are kept as they are. -/
theorem kfileOff_of_lt {pos : ℕ} (h : pos < 2 ^ 31) : kfileOff pos = pos :=
  toSigned_of_range (by decide) (by omega) (by simpa using h)

/-- The contents of the device, block after block. -/
def flatView (block : σ → ℕ → ℕ → UInt8) (b : KBlock) (d : σ) (a : ℕ) : UInt8 :=
  blockView block b d (a / b.blkSize) (a % b.blkSize)

section
variable {vt : KBlockVTable σ} {block : σ → ℕ → ℕ → UInt8} {b b' : KBlock} {d d' : σ}

theorem flatView_add {idx j : ℕ} (hj : j < b.blkSize) :
    flatView block b d (idx * b.blkSize + j) = blockView block b d idx j := by
  have hs : 0 < b.blkSize := Nat.zero_lt_of_lt hj
  rw [flatView, Nat.mul_comm, Nat.mul_add_div hs, Nat.div_eq_of_lt hj, Nat.add_zero, Nat.mul_add_mod,
    Nat.mod_eq_of_lt hj]

/-- Every address of the device lies in one of its blocks. -/
theorem exists_block_of_lt {blkSize cnt a : ℕ} (ha : a < cnt * blkSize) :
    ∃ idx j, idx < cnt ∧ j < blkSize ∧ a = idx * blkSize + j := by
  have hs : 0 < blkSize := Nat.pos_of_ne_zero (by rintro rfl; simp at ha)
  exact ⟨a / blkSize, a % blkSize, Nat.div_lt_of_lt_mul (Nat.mul_comm cnt blkSize ▸ ha), Nat.mod_lt a hs,
    (Nat.div_add_mod' a blkSize).symm⟩

/-- Reads leave the flat contents alone. -/
theorem flatView_congr (hsame : SameBlocks block b d d') {a : ℕ} (ha : a < b.blkCnt * b.blkSize) :
    flatView block b d' a = flatView block b d a := by
  obtain ⟨idx, j, hidx, hj, rfl⟩ := exists_block_of_lt ha
  rw [flatView_add hj, flatView_add hj, (view_congr hsame hidx).1]

/-- A read within a block is a read of the flat contents. -/
theorem kblockRead_flatView (hR : Reliable vt block b) {idx o n : ℕ} (hi : idx < b.blkCnt) (ho : o + n ≤ b.blkSize) :
    ∃ d', kblockRead vt b d idx o n = ((read (flatView block b d) (idx * b.blkSize + o) n, n), d') ∧
      SameBlocks block b d d' := by
  obtain ⟨d', hread, hsame⟩ := kblockRead_blockView hR hi ho
  refine ⟨d', ?_, hsame⟩
  rw [hread]
  congr 2
  refine (read_eq_of_forall (length_read _ _ _) fun i hin => ?_).symm
  rw [getElem?_read _ _ _ hin, Nat.add_assoc, flatView_add (by omega)]

/-- A write within a block is a write to the flat contents. -/
theorem kblockWrite_flatView (hR : Reliable vt block b) (hc : Coherent block b d) {idx o : ℕ} {bs : List UInt8}
    (hi : idx < b.blkCnt) (ho : o + bs.length ≤ b.blkSize) :
    ∃ b' d', kblockWrite vt b d idx bs o = (bs.length, b', d') ∧ SameGeometry b b' ∧ Coherent block b' d' ∧
      ∀ a < b.blkCnt * b.blkSize,
        flatView block b' d' a = write (flatView block b d) (idx * b.blkSize + o) bs a := by
  obtain ⟨b', d', hw, hg, hc', hview, -⟩ := kblockWrite_blockView hR hc hi ho
  refine ⟨b', d', hw, hg, hc', fun a ha => ?_⟩
  obtain ⟨i, j, hi', hj, rfl⟩ := exists_block_of_lt ha
  rw [← hg.blkSize, flatView_add (hg.blkSize ▸ hj), hview i hi', hg.blkSize]
  by_cases hii : i = idx
  · subst hii
    rw [if_pos rfl]
    simp only [write, flatView_add hj, Nat.add_le_add_iff_left, Nat.add_sub_add_left]
  · have hout := block_disjoint hii hj
    rw [Nat.succ_mul] at hout
    rw [if_neg hii, write_of_not_mem _ _ _ (by omega), flatView_add hj]

/-- After any reads, a read within a block still reads the contents of the start. -/
theorem SameBlocks.kblockRead (hR : Reliable vt block b) (hsame : SameBlocks block b d d') {idx o n : ℕ}
    (hi : idx < b.blkCnt) (ho : o + n ≤ b.blkSize) :
    ∃ d₂, kblockRead vt b d' idx o n = ((read (flatView block b d) (idx * b.blkSize + o) n, n), d₂) ∧
      SameBlocks block b d d₂ := by
  obtain ⟨d₂, hr, hsame₂⟩ := kblockRead_flatView hR hi ho
  refine ⟨d₂, ?_, fun i hi j hj => (hsame₂ i hi j hj).trans (hsame i hi j hj)⟩
  rw [hr]
  congr 2
  have hblk := Nat.mul_le_mul_right b.blkSize (Nat.succ_le_of_lt hi)
  rw [Nat.succ_mul] at hblk
  exact read_congr fun i _ hi => flatView_congr hsame (by omega)

/-- The position and the device when the bytes `P` have been written from the position of the file on. -/
structure FlatWritten (block : σ → ℕ → ℕ → UInt8) (fb : KFileBlock) (d : σ) (pos : ℕ) (P : List UInt8) (b' : KBlock)
    (d' : σ) : Prop where
  pos_eq : pos = fb.seekPos + P.length
  same : SameGeometry fb.blk b'
  coherent : Coherent block b' d'
  flat : ∀ a < fb.blk.blkCnt * fb.blk.blkSize, flatView block b' d' a = write (flatView block fb.blk d) fb.seekPos P a

/-- The next piece within a block. -/
theorem FlatWritten.kblockWrite {fb : KFileBlock} {pos : ℕ} {P bs : List UInt8} (h : FlatWritten block fb d pos P b' d')
    (hR : Reliable vt block fb.blk) (hid : pos / fb.blk.blkSize < fb.blk.blkCnt)
    (ho : pos % fb.blk.blkSize + bs.length ≤ fb.blk.blkSize) :
    ∃ b₂ d₂, kblockWrite vt b' d' (pos / fb.blk.blkSize) bs (pos % fb.blk.blkSize) = (bs.length, b₂, d₂) ∧
      FlatWritten block fb d (pos + bs.length) (P ++ bs) b₂ d₂ := by
  obtain ⟨rfl, hg, hc, hflat⟩ := h
  have ho' : (fb.seekPos + P.length) % fb.blk.blkSize + bs.length ≤ b'.blkSize := by rwa [hg.blkSize]
  obtain ⟨b₂, d₂, hw, hg₂, hc₂, hflat₂⟩ := kblockWrite_flatView (hR.same hg) hc (hg.blkCnt.symm ▸ hid) ho'
  refine ⟨b₂, d₂, hw, by rw [List.length_append, Nat.add_assoc], hg.trans hg₂, hc₂, fun a ha => ?_⟩
  rw [hflat₂ a (by rwa [hg.blkCnt, hg.blkSize]), hg.blkSize, Nat.div_add_mod', ← write_append]
  exact write_apply_congr _ _ _ (hflat a ha)

end

/-- **A `KFileBlock` is one flat file over its blocks**, for a device without errors, buffered or not, of less than
2 GiB, from every position. The loops end with every fuel that is no less than the number of bytes. -/
theorem kfileblock_flat {vt : KBlockVTable σ} {block : σ → ℕ → ℕ → UInt8} {fb : KFileBlock} {d : σ}
    (hs : 0 < fb.blk.blkSize) (hR : Reliable vt block fb.blk) (hc : Coherent block fb.blk d)
    (hpos : fb.seekPos < 2 ^ 31) (hfit : fb.blk.blkCnt * fb.blk.blkSize < 2 ^ 31) :
    (∀ size fuel, size ≤ fuel → ∃ len d', len = min size (fb.blk.blkCnt * fb.blk.blkSize - fb.seekPos) ∧
      kfileblockReadLoop vt fuel size fb d =
        (read (flatView block fb.blk d) fb.seekPos len, { fb with seekPos := fb.seekPos + len }, d') ∧
      kfileOff (fb.seekPos + len) = (fb.seekPos + len : ℕ) ∧ Coherent block fb.blk d' ∧
      ∀ a < fb.blk.blkCnt * fb.blk.blkSize, flatView block fb.blk d' a = flatView block fb.blk d a) ∧
    ∀ bs fuel, bs.length ≤ fuel → ∃ len b' d', len = min bs.length (fb.blk.blkCnt * fb.blk.blkSize - fb.seekPos) ∧
      kfileblockWriteLoop vt fuel bs fb d = (len, { fb with blk := b', seekPos := fb.seekPos + len }, d') ∧
      kfileOff (fb.seekPos + len) = (fb.seekPos + len : ℕ) ∧ SameGeometry fb.blk b' ∧ Coherent block b' d' ∧
      ∀ a < fb.blk.blkCnt * fb.blk.blkSize,
        flatView block b' d' a = write (flatView block fb.blk d) fb.seekPos (bs.take len) a := by
  refine ⟨fun size fuel hfuel => ?_, fun bs fuel hfuel => ?_⟩
  · obtain ⟨d', hloop, hsame⟩ := kfileblockReadLoop_flat 0 hs (m := flatView block fb.blk d)
      (fun d₁ id o n (hsame : SameBlocks block fb.blk d d₁) hid ho => by
        rw [Nat.zero_add]
        exact hsame.kblockRead hR hid ho) size fb.seekPos fb.size hfuel (.refl d)
    rw [Nat.zero_add] at hloop
    exact ⟨_, d', rfl, hloop, kfileOff_of_lt (by omega), hc.congr hsame, fun a ha => flatView_congr hsame ha⟩
  · obtain ⟨len, b', d', hloop, hlen, hend⟩ := kfileblockWriteLoop_flat (I := FlatWritten block fb d) hs
      (fun _ _ _ _ h => ⟨h.same.blkSize, h.same.blkCnt⟩) (fun _ _ _ _ _ h _ hid ho => h.kblockWrite hR hid ho)
      bs fb.size hfuel ⟨rfl, .refl _, hc, fun _ _ => by rw [write_nil]⟩
    exact ⟨len, b', d', hlen, hloop, kfileOff_of_lt (by omega), hend.same, hend.coherent, hend.flat⟩

/-- Three bytes across the end of the first of two blocks in memory. -/
theorem kfileblock_flat_ram :
    ∃ fb' d', kfileblockRead (kblockramVt 2) ⟨kblockramInit (fun a => UInt8.ofNat a) 4 2 false, 1, 4⟩
      (fun a => UInt8.ofNat a) 5 = ([1, 2, 3], fb', d') := by
  have h := kfileblock_flat (show 0 < (KFileBlock.mk (kblockramInit (fun a => UInt8.ofNat a) 4 2 false) 1 4).blk.blkSize
    by decide) (reliable_ram _ 4 2 false) (coherent_ram (fun a => UInt8.ofNat a) 4 2 false (by decide)) (by decide)
    (by decide)
  obtain ⟨len, d', rfl, hread, -⟩ := h.1 5 5 (Nat.le_refl 5)
  exact ⟨_, d', hread⟩

/-- On a device of more than 2 GiB the last byte in front of 2 GiB can be read, and the position is then negative. -/
theorem kfileblock_wraps :
    let fb : KFileBlock := ⟨kblockramInit (fun _ => 7) 2147484160 512 false, 2147483647, 0⟩
    let r := kfileblockRead (kblockramVt 512) fb (fun _ => 7) 1
    r.1 = [7] ∧ kfileOff fb.seekPos = 2147483647 ∧ kfileOff r.2.1.seekPos = -2147483648 := by
  decide +kernel

end Bertos
