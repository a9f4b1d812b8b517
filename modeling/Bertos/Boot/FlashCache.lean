import Bertos.Drv.FlashRules
import Bertos.Io.KFileBlock

/-!
# The flash behind its one-block cache

`view b d` is the partition as it is read through the cache of `b`. `FlashInv` ties the cache to the device: a clean
cache holds what is in flash, and a dirty one may be written back without breaking the rules of the flash.

`Upload P b d` says in addition that the bytes of `P` have been written from the start of the partition on. A file
written from position 0 on is what is in flash after the final flush (`kfileblockWrite_upload`, `Upload.flushed`).
-/

namespace Bertos

open List Mem

def view (b : KBlock) (d : FlashDev) : ℕ → UInt8 :=
  fun i => if i / 1024 = b.currBlk then b.buf (i % 1024) else d.mem (blockAddr 0 + i)

structure FlashInv (b : KBlock) (d : FlashDev) : Prop extends DevInv d where
  buffered : b.buffered = true
  blkSize : b.blkSize = 1024
  blkStart : b.blkStart = 128
  blkCnt : b.blkCnt = 896
  curr : b.currBlk < 896
  clean : b.dirty = false → Mem.read b.buf 0 1024 = Mem.read d.mem (blockAddr b.currBlk) 1024
  dirty : b.dirty = true → b.currBlk % 128 = 0 ∨ FreshFrom b.currBlk d.log

section Cache

variable {b : KBlock} {d : FlashDev}

theorem blockAddr_eq (k : ℕ) : blockAddr k = blockAddr 0 + k * 1024 := by simp only [blockAddr]; omega

theorem view_eq_mem (h : Mem.read b.buf 0 1024 = Mem.read d.mem (blockAddr b.currBlk) 1024) (i : ℕ) :
    view b d i = d.mem (blockAddr 0 + i) := by
  unfold view
  split
  · rename_i hi
    have h' := congrArg (·[i % 1024]?) h
    have hlt : i % 1024 < 1024 := Nat.mod_lt _ (by decide)
    simp only [getElem?_read _ _ _ hlt, Option.some.injEq] at h'
    rw [Nat.zero_add, blockAddr_eq, ← hi] at h'
    rw [h', Nat.add_assoc, Nat.div_add_mod' i 1024]
  · rfl

/-- **Flushing** leaves a clean cache. What lies before the end of the cached block is kept, and the rest of its sector
can be written. -/
theorem kblockFlush_spec (h : FlashInv b d) :
    ∃ d', kblockFlush flashStm32Vt b d = (true, { b with dirty := false }, d') ∧
      FlashInv { b with dirty := false } d' ∧
      (∀ i, i < (b.currBlk + 1) * 1024 → d'.mem (blockAddr 0 + i) = view b d i) ∧
      (b.dirty = true → (b.currBlk + 1) % 128 = 0 ∨ FreshFrom (b.currBlk + 1) d'.log) := by
  cases hd : b.dirty with
  | false =>
    have hb : { b with dirty := false } = b := by cases b; simp_all
    refine ⟨d, ?_, ?_, fun i _ => (view_eq_mem (h.clean hd) i).symm, fun h => by cases h⟩
    · rw [kblockFlush, kblockCacheDirty, hd, hb]; simp
    · rw [hb]; exact h
  | true =>
    obtain ⟨d', hw, hi, hr, hlow, hf⟩ := flashWriteDirect_spec h.toDevInv h.curr
      (length_read b.buf 0 1024) (h.dirty hd) 0
    refine ⟨d', ?_, ?_, ?_, fun _ => hf⟩
    · have hs : kblockStore flashStm32Vt b d b.currBlk = (true, d') := by
        simp only [kblockStore, kblockSwStore, kblockWriteDirect, Nat.add_sub_cancel_left, h.blkStart, h.blkSize,
          flashStm32Vt, hw, beq_self_eq_true]
      have hc : kblockCacheDirty b = true := by simp [kblockCacheDirty, h.buffered, hd]
      rw [kblockFlush, if_pos h.buffered, if_pos hc, hs]
      rfl
    · exact { h with toDevInv := hi, clean := fun _ => hr.symm, dirty := nofun }
    · intro i hlt
      by_cases hb : i / 1024 = b.currBlk
      · rw [← view_eq_mem (b := b) hr.symm i, view, view, if_pos hb, if_pos hb]
      · rw [view, if_neg hb, hlow _ (by rw [blockAddr_eq b.currBlk]; omega)]

theorem kblockLoad_spec (h : FlashInv b d) (idx : ℕ) : kblockLoad flashStm32Vt b d idx =
    (true, { b with buf := write b.buf 0 (read d.mem (blockAddr idx) 1024) }, d) := by
  have hr : kblockReadDirect flashStm32Vt b d (b.blkStart + idx - b.blkStart) 0 b.blkSize =
      ((read d.mem (blockAddr idx) 1024, b.blkSize), d) := by
    rw [Nat.add_sub_cancel_left, kblockReadDirect, h.blkStart, h.blkSize]
    simp only [flashStm32Vt, stm32FlashReadDirect, blockAddr, flashPageSize, Nat.add_zero]
  rw [kblockLoad, kblockSwLoad, hr]
  simp

/-- Loading a block flushes the cache first. -/
theorem kblockLoadPage_spec (h : FlashInv b d) {idx : ℕ} (hi : idx < 896) (hne : idx ≠ b.currBlk) :
    ∃ b' d', kblockLoadPage flashStm32Vt b d idx = (true, b', d') ∧ FlashInv b' d' ∧ b'.dirty = false ∧
      b'.currBlk = idx ∧ (∀ i, i < (b.currBlk + 1) * 1024 → view b' d' i = view b d i) ∧
      (b.dirty = true → (b.currBlk + 1) % 128 = 0 ∨ FreshFrom (b.currBlk + 1) d'.log) := by
  obtain ⟨d', hf, hinv, hkeep, hfresh⟩ := kblockFlush_spec h
  have hload : kblockLoadPage flashStm32Vt b d idx = (true, { b with
      dirty := false
      buf := write b.buf 0 (read d'.mem (blockAddr idx) 1024)
      currBlk := idx }, d') := by
    simp only [kblockLoadPage, if_pos hne, hf, kblockLoad_spec hinv]
  have hclean : read (write b.buf 0 (read d'.mem (blockAddr idx) 1024)) 0 1024 =
      read d'.mem (blockAddr idx) 1024 := by
    have := read_write_self b.buf 0 (read d'.mem (blockAddr idx) 1024)
    rwa [length_read] at this
  refine ⟨_, d', hload, ?_, rfl, rfl, fun i hlt => ?_, hfresh⟩
  · exact { h with toDevInv := hinv.toDevInv, curr := hi, clean := fun _ => hclean, dirty := nofun }
  · rw [view_eq_mem hclean, hkeep i hlt]

end Cache

/-! ## Writing a file -/

/-- The bytes of `P` have been written from the start of the partition on. -/
structure Upload (P : List UInt8) (b : KBlock) (d : FlashDev) : Prop extends FlashInv b d where
  at_end : P ≠ [] → b.dirty = true ∧ b.currBlk = (P.length - 1) / 1024 ∧ Mem.read (view b d) 0 P.length = P

section Upload

variable {P : List UInt8} {b : KBlock} {d : FlashDev}

theorem FlashInv.upload_nil (h : FlashInv b d) : Upload [] b d := ⟨h, fun h => absurd rfl h⟩

theorem view_write (bs : List UInt8) (offset : ℕ) (h : offset + bs.length ≤ 1024) :
    view { b with dirty := true, buf := write b.buf offset bs } d =
      write (view b d) (b.currBlk * 1024 + offset) bs := by
  funext i
  by_cases hi : i / 1024 = b.currBlk
  · by_cases hm : offset ≤ i % 1024 ∧ i % 1024 < offset + bs.length
    · have e₁ := write_of_mem b.buf offset bs hm.1 hm.2
      have e₂ := write_of_mem (view b d) (b.currBlk * 1024 + offset) bs (i := i) (by omega) (by omega)
      rw [show i - (b.currBlk * 1024 + offset) = i % 1024 - offset by omega, ← e₁, Option.some.injEq] at e₂
      rw [e₂, view, if_pos hi]
    · rw [write_of_not_mem _ _ _ (by omega), view, view, if_pos hi, if_pos hi]
      exact write_of_not_mem b.buf offset bs (by omega)
  · rw [write_of_not_mem _ _ _ (by omega), view, view, if_neg hi, if_neg hi]

/-- **Writing** the bytes that follow, up to the end of a block. -/
theorem kblockWrite_upload (h : Upload P b d) (bs : List UInt8) (hbs : bs ≠ []) (hi : P.length / 1024 < 896)
    (hlen : P.length % 1024 + bs.length ≤ 1024) :
    ∃ b' d', kblockWrite flashStm32Vt b d (P.length / 1024) bs (P.length % 1024) = (bs.length, b', d') ∧
      Upload (P ++ bs) b' d' := by
  have hpos := length_pos_iff.mpr hbs
  -- the page that is written, which holds the end of `P` already
  obtain ⟨b', d', hl, hinv, hcurr, hfresh, hview⟩ : ∃ b' d',
      kblockLoadPage flashStm32Vt b d (P.length / 1024) = (true, b', d') ∧ FlashInv b' d' ∧
      b'.currBlk = P.length / 1024 ∧ (b'.currBlk % 128 = 0 ∨ FreshFrom b'.currBlk d'.log) ∧
      read (view b' d') 0 P.length = P := by
    by_cases hsame : P.length / 1024 = b.currBlk
    · refine ⟨b, d, by rw [kblockLoadPage, if_neg (not_not.mpr hsame)], h.toFlashInv, hsame.symm, ?_, ?_⟩
      · by_cases hP : P = []
        · exact .inl (by rw [← hsame, hP]; rfl)
        · exact h.dirty (h.at_end hP).1
      · by_cases hP : P = []
        · simp [hP]
        · exact (h.at_end hP).2.2
    · obtain ⟨b', d', hl, hinv, -, hcurr, hkeep, hfresh⟩ := kblockLoadPage_spec h.toFlashInv hi hsame
      refine ⟨b', d', hl, hinv, hcurr, ?_, ?_⟩
      · by_cases hP : P = []
        · exact .inl (by rw [hcurr, hP]; rfl)
        · obtain ⟨hd, hc, -⟩ := h.at_end hP
          have hp := length_pos_iff.mpr hP
          rw [show b'.currBlk = b.currBlk + 1 by omega]
          exact hfresh hd
      · by_cases hP : P = []
        · simp [hP]
        · obtain ⟨-, hc, hr⟩ := h.at_end hP
          exact (read_congr fun i _ hlt => hkeep i (by omega)).trans hr
  have hw : kblockWrite flashStm32Vt b d (P.length / 1024) bs (P.length % 1024) =
      (bs.length, { b' with dirty := true, buf := write b'.buf (P.length % 1024) bs }, d') := by
    rw [kblockWrite, if_pos h.buffered, hl]
    rfl
  refine ⟨_, d', hw, ⟨?_, fun _ => ⟨rfl, ?_, ?_⟩⟩⟩
  · exact { hinv with clean := nofun, dirty := fun _ => hfresh }
  · rw [length_append]
    show b'.currBlk = _
    omega
  · rw [view_write bs _ hlen, hcurr, Nat.div_add_mod', read_write_within _ _ _ (Nat.zero_le _) (by simp), Nat.sub_zero,
      hview]
    simp

theorem Upload.length_le (h : Upload P b d) : P.length ≤ 917504 := by
  by_cases hP : P = []
  · simp [hP]
  · have hc := (h.at_end hP).2.1
    have := h.curr
    omega

theorem Upload.flushed (h : Upload P b d) :
    ∃ d', kblockFlush flashStm32Vt b d = (true, { b with dirty := false }, d') ∧ FlashInv { b with dirty := false } d' ∧
      read d'.mem (blockAddr 0) P.length = P := by
  obtain ⟨d', hf, hinv, hkeep, -⟩ := kblockFlush_spec h.toFlashInv
  refine ⟨d', hf, hinv, ?_⟩
  by_cases hP : P = []
  · simp [hP]
  · obtain ⟨-, hc, hr⟩ := h.at_end hP
    have hp := length_pos_iff.mpr hP
    refine Eq.trans (read_eq_of_forall (length_read _ _ _) fun i hi => ?_) hr
    rw [getElem?_read _ _ _ hi, Nat.zero_add, hkeep i (by omega)]

/-- A write through the file appends to the upload, as far as the partition goes. -/
theorem kfileblockWrite_upload {fb : KFileBlock} (h : Upload P fb.blk d) (hpos : fb.seekPos = P.length)
    (bs : List UInt8) :
    ∃ n fb' d', kfileblockWrite flashStm32Vt fb d bs = (n, fb', d') ∧ n = min bs.length (917504 - P.length) ∧
      Upload (P ++ bs.take n) fb'.blk d' ∧ fb'.seekPos = P.length + n ∧ fb'.size = fb.size := by
  have hwrite : ∀ pos (P : List UInt8) b d bs, Upload P b d ∧ pos = P.length → bs ≠ [] → pos / 1024 < 896 →
      pos % 1024 + bs.length ≤ 1024 → ∃ b' d', kblockWrite flashStm32Vt b d (pos / 1024) bs (pos % 1024) =
        (bs.length, b', d') ∧ Upload (P ++ bs) b' d' ∧ pos + bs.length = (P ++ bs).length := by
    rintro _ P b d bs ⟨h, rfl⟩ hne hi hlen
    obtain ⟨b', d', hw, hup⟩ := kblockWrite_upload h bs hne hi hlen
    exact ⟨b', d', hw, hup, length_append.symm⟩
  obtain ⟨n, b', d', hloop, hn, hup, -⟩ := kfileblockWriteLoop_flat (by decide)
    (fun _ _ _ _ hI => ⟨hI.1.blkSize, hI.1.blkCnt⟩) hwrite bs fb.size (Nat.le_refl _) ⟨h, hpos⟩
  rw [hpos] at hn hloop
  exact ⟨n, ⟨b', _, fb.size⟩, d', hpos ▸ hloop, hn, hup, rfl, rfl⟩

/-- A write inside the cached block only changes the cache. -/
theorem kfileblockWrite_cached {fb : KFileBlock} (h : FlashInv fb.blk d) (bs : List UInt8) (hbs : bs ≠ [])
    (hblk : fb.seekPos / 1024 = fb.blk.currBlk) (hlen : fb.seekPos % 1024 + bs.length ≤ 1024) :
    kfileblockWrite flashStm32Vt fb d bs = (bs.length, { fb with
      blk := { fb.blk with dirty := true, buf := write fb.blk.buf (fb.seekPos % 1024) bs }
      seekPos := fb.seekPos + bs.length }, d) := by
  obtain ⟨x, xs, rfl⟩ := exists_cons_of_ne_nil hbs
  have hcount : min (x :: xs).length (1024 - fb.seekPos % 1024) = (x :: xs).length := by omega
  have hw : kblockWrite flashStm32Vt fb.blk d (fb.seekPos / 1024) (x :: xs) (fb.seekPos % 1024) =
      ((x :: xs).length, { fb.blk with dirty := true, buf := write fb.blk.buf (fb.seekPos % 1024) (x :: xs) }, d) := by
    rw [kblockWrite, if_pos h.buffered, kblockLoadPage, if_neg (not_not.mpr hblk)]
    rfl
  have hnil : ∀ fb' : KFileBlock, kfileblockWriteLoop flashStm32Vt xs.length [] fb' d = (0, fb', d) := by
    intro fb'
    cases xs <;> rfl
  have hfull : ¬ 896 ≤ fb.seekPos / 1024 := by rw [hblk]; exact Nat.not_le.mpr h.curr
  rw [kfileblockWrite, length_cons, kfileblockWriteLoop, if_neg (by simp)]
  simp only [h.blkSize, h.blkCnt, if_neg hfull, hcount, take_length, hw, ne_eq, not_true_eq_false, if_false,
    drop_length, hnil]
  rfl

end Upload

/-! ## Reading a file -/

section Read

variable {b : KBlock} {d : FlashDev}

/-- A read sees the flash through the cache. -/
theorem kblockRead_view (h : FlashInv b d) (idx offset size : ℕ) (hs : offset + size ≤ 1024) :
    kblockRead flashStm32Vt b d idx offset size = ((Mem.read (view b d) (idx * 1024 + offset) size, size), d) := by
  unfold kblockRead
  by_cases hi : idx = b.currBlk
  · rw [if_pos (by simp [h.buffered, hi])]
    congr 2
    refine read_eq_of_forall (length_read _ _ _) fun i hlt => ?_
    rw [getElem?_read _ _ _ hlt, view, if_pos (by omega)]
    congr 2; omega
  · have hr : read d.mem ((128 + idx) * flashPageSize + offset) size =
        read (view b d) (idx * 1024 + offset) size := by
      refine read_eq_of_forall (length_read _ _ _) fun i hlt => ?_
      rw [getElem?_read _ _ _ hlt, view, if_neg (by omega)]
      rw [show blockAddr 0 + (idx * 1024 + offset + i) = (128 + idx) * flashPageSize + offset + i by
        simp only [blockAddr, flashPageSize]; omega]
    rw [if_neg (by simp [hi]), kblockReadDirect, h.blkStart, ← hr]
    rfl

/-- A read through the file reads the view, as far as the partition goes. -/
theorem kfileblockRead_view (fb : KFileBlock) (h : FlashInv fb.blk d) (size : ℕ) :
    kfileblockRead flashStm32Vt fb d size = (Mem.read (view fb.blk d) fb.seekPos (min size (917504 - fb.seekPos)),
      { fb with seekPos := fb.seekPos + min size (917504 - fb.seekPos) }, d) := by
  have hread : ∀ d' id o n, d' = d → id < fb.blk.blkCnt → o + n ≤ fb.blk.blkSize → ∃ d'',
      kblockRead flashStm32Vt fb.blk d' id o n =
        ((read (view fb.blk d) (0 + (id * fb.blk.blkSize + o)) n, n), d'') ∧ d'' = d := by
    rintro d' id o n rfl _ ho
    rw [h.blkSize] at ho ⊢
    rw [Nat.zero_add]
    exact ⟨_, kblockRead_view h id o n ho, rfl⟩
  obtain ⟨d', hloop, rfl⟩ := kfileblockReadLoop_flat 0 (by rw [h.blkSize]; decide) hread size fb.seekPos fb.size
    (Nat.le_refl size) rfl
  rw [h.blkSize, h.blkCnt, Nat.zero_add] at hloop
  exact hloop

end Read

end Bertos
