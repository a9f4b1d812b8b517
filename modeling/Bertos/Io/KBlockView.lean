import Bertos.Io.KBlockRam

/-!
# Block devices without errors

`block d idx` is what a driver in state `d` stores in block `idx`. A driver is `Reliable` for a descriptor if its
direct accesses inside the blocks carry out what they are asked for. With a coherent cache (`Coherent`) a client then
sees an array of blocks, `blockView`, which reads and flushes keep and of which a write changes one block.

A copy gives the cached block another number; it changes nothing but its target unless the source is in the cache and
modified (`kblockCopy_reads_iff`).
-/

namespace Bertos

open Mem

variable {σ : Type}

/-- Direct accesses within the blocks of the descriptor succeed. -/
structure Reliable (vt : KBlockVTable σ) (block : σ → ℕ → ℕ → UInt8) (b : KBlock) : Prop where
  read : ∀ d idx o n, idx < b.blkCnt → o + n ≤ b.blkSize → ∃ d',
    vt.readDirect d (b.blkStart + idx) o n = ((Mem.read (block d idx) o n, n), d') ∧
    ∀ i < b.blkCnt, ∀ j < b.blkSize, block d' i j = block d i j
  write : ∀ d idx o bs, idx < b.blkCnt → o + bs.length ≤ b.blkSize → ∃ d',
    vt.writeDirect d (b.blkStart + idx) bs o = (bs.length, d') ∧
    ∀ i < b.blkCnt, ∀ j < b.blkSize, block d' i j = if i = idx then Mem.write (block d idx) o bs j else block d i j

/-- The blocks of the descriptor hold the same bytes in the driver states `d` and `d'`. -/
def SameBlocks (block : σ → ℕ → ℕ → UInt8) (b : KBlock) (d d' : σ) : Prop :=
  ∀ i < b.blkCnt, ∀ j < b.blkSize, block d' i j = block d i j

section
variable {vt : KBlockVTable σ} {block : σ → ℕ → ℕ → UInt8} {b b' : KBlock} {d : σ}

theorem SameBlocks.refl (d : σ) : SameBlocks block b d d := fun _ _ _ _ => rfl

theorem Reliable.same (hR : Reliable vt block b) (hg : SameGeometry b b') : Reliable vt block b' where
  read := by
    rw [hg.blkStart, hg.blkCnt, hg.blkSize]
    exact hR.read
  write := by
    rw [hg.blkStart, hg.blkCnt, hg.blkSize]
    exact hR.write

variable (block b d)

def KBlock.Cached (b : KBlock) (idx : ℕ) : Prop := b.buffered = true ∧ idx = b.currBlk

instance (idx : ℕ) : Decidable (b.Cached idx) := inferInstanceAs (Decidable (_ ∧ _))

def stored (idx : ℕ) : ℕ → UInt8 := fun j => if j < b.blkSize then block d idx j else 0

/-- The contents of a block as a client sees them. -/
def blockView (idx : ℕ) : ℕ → UInt8 :=
  fun j => if j < b.blkSize then if b.Cached idx then b.buf j else block d idx j else 0

/-- The cache holds a block of the device, and its contents unless it is dirty. -/
def Coherent : Prop :=
  b.buffered = true → b.currBlk < b.blkCnt ∧ (b.dirty = false → ∀ j < b.blkSize, b.buf j = block d b.currBlk j)

variable {block b d}

theorem view_of_not_cached {idx : ℕ} (h : ¬ b.Cached idx) : blockView block b d idx = stored block b d idx := by
  funext j
  simp only [blockView, stored, h, if_false]

theorem view_apply_cached {idx j : ℕ} (hj : j < b.blkSize) (h : b.Cached idx) : blockView block b d idx j =
    b.buf j := by
  simp only [blockView, hj, h, if_true]

theorem view_apply_not_cached {idx j : ℕ} (hj : j < b.blkSize) (h : ¬ b.Cached idx) :
    blockView block b d idx j = block d idx j := by
  simp only [blockView, hj, h, if_true, if_false]

theorem view_apply_out {idx j : ℕ} (hj : ¬ j < b.blkSize) : blockView block b d idx j = 0 := by
  simp only [blockView, hj, if_false]

theorem view_ext {d' : σ} {idx idx' : ℕ} (hg : b'.blkSize = b.blkSize)
    (h : ∀ j < b.blkSize, (if b'.Cached idx' then b'.buf j else block d' idx' j) =
      if b.Cached idx then b.buf j else block d idx j) : blockView block b' d' idx' = blockView block b d idx := by
  funext j
  unfold blockView
  rw [hg]
  split_ifs with hj hc hc' hc' <;> have := h j
  all_goals simp_all

theorem read_view {idx o n : ℕ} (h : o + n ≤ b.blkSize) : Mem.read (blockView block b d idx) o n =
    Mem.read (if b.Cached idx then b.buf else block d idx) o n := by
  refine read_congr fun i h1 h2 => ?_
  unfold blockView
  rw [if_pos (by omega)]
  split_ifs <;> rfl

theorem kblockRead_blockView (hR : Reliable vt block b) {idx o n : ℕ} (hi : idx < b.blkCnt) (hn : o + n ≤ b.blkSize) :
    ∃ d', kblockRead vt b d idx o n = ((Mem.read (blockView block b d idx) o n, n), d') ∧ SameBlocks block b d d' := by
  rw [read_view hn]
  unfold kblockRead
  by_cases hc : b.Cached idx
  · have hcond : (b.buffered && idx == b.currBlk) = true := by simp [hc.1, hc.2]
    rw [if_pos hcond, if_pos hc]
    exact ⟨d, rfl, .refl d⟩
  · have hcond : ¬ (b.buffered && idx == b.currBlk) = true := by simpa [KBlock.Cached] using hc
    rw [if_neg hcond, if_neg hc]
    exact hR.read d idx o n hi hn

theorem view_congr {d' : σ} (h : SameBlocks block b d d') {i : ℕ}
    (hi : i < b.blkCnt) : blockView block b d' i = blockView block b d i ∧ stored block b d' i =
      stored block b d i := by
  refine ⟨view_ext rfl fun j hj => ?_, ?_⟩
  · rw [h i hi j hj]
  · funext j
    unfold stored
    split_ifs with hj
    · exact h i hi j hj
    · rfl

theorem Coherent.congr {d' : σ} (hc : Coherent block b d) (h : SameBlocks block b d d') : Coherent block b d' := by
  intro hb
  obtain ⟨hlt, hbuf⟩ := hc hb
  refine ⟨hlt, fun hd j hj => ?_⟩
  rw [hbuf hd j hj, h _ hlt j hj]

/-- A flush changes nothing that a reader sees. -/
theorem kblockFlush_blockView (hR : Reliable vt block b) (hc : Coherent block b d) (hb : b.buffered = true) :
    ∃ d', kblockFlush vt b d = (true, { b with dirty := false }, d') ∧
      ∀ i < b.blkCnt, ∀ j < b.blkSize, block d' i j = blockView block b d i j := by
  obtain ⟨hlt, hbuf⟩ := hc hb
  unfold kblockFlush kblockCacheDirty
  rw [if_pos hb]
  cases hd : b.dirty with
  | false =>
    refine ⟨d, ?_, fun i hi j hj => ?_⟩
    · have hb' : ({ b with dirty := false } : KBlock) = b := by rw [← hd]
      rw [hb', Bool.and_false, if_neg Bool.false_ne_true]
    · by_cases hca : b.Cached i
      · rw [view_apply_cached hj hca, hbuf hd j hj, hca.2]
      · rw [view_apply_not_cached hj hca]
  | true =>
    obtain ⟨d', hw, hblk⟩ := hR.write d b.currBlk 0 (read b.buf 0 b.blkSize) hlt (by simp)
    refine ⟨d', ?_, fun i hi j hj => ?_⟩
    · simp only [hb, Bool.and_self, if_true, kblockStore, kblockSwStore, kblockWriteDirect, Nat.add_sub_cancel_left, hw,
        length_read, beq_self_eq_true, kblockSetDirty]
    · rw [hblk i hi j hj]
      unfold blockView KBlock.Cached
      simp only [hb, true_and, hj, if_true]
      split_ifs
      · have hmem := write_of_mem (block d b.currBlk) 0 (read b.buf 0 b.blkSize) (Nat.zero_le j) (by simpa using hj)
        rw [Nat.sub_zero, getElem?_read _ _ _ hj, Nat.zero_add] at hmem
        exact Option.some.inj hmem
      · rfl

/-- A cache just loaded shows what was seen before. -/
theorem view_loaded {d' : σ} {idx : ℕ} (hi : idx < b.blkCnt) (hg : SameGeometry b b') (hcb : b'.currBlk = idx)
    (hbuf : ∀ j < b.blkSize, b'.buf j = block d' idx j)
    (hblk : ∀ i < b.blkCnt, ∀ j < b.blkSize, block d' i j = blockView block b d i j) :
    Coherent block b' d' ∧ (∀ i < b.blkCnt, blockView block b' d' i = blockView block b d i) ∧
      ∀ i < b.blkCnt, stored block b' d' i = blockView block b d i := by
  refine ⟨fun _ => ⟨by rw [hcb, hg.blkCnt]; exact hi, fun _ j hj => ?_⟩, fun i hi' => ?_, fun i hi' => ?_⟩
  · rw [hcb, hbuf j (hg.blkSize ▸ hj)]
  · funext j
    by_cases hj : j < b.blkSize
    · have hj' : j < b'.blkSize := hg.blkSize ▸ hj
      by_cases hca : b'.Cached i
      · rw [view_apply_cached hj' hca, hbuf j hj, ← hblk i hi' j hj, hca.2, hcb]
      · rw [view_apply_not_cached hj' hca, hblk i hi' j hj]
    · rw [view_apply_out hj, view_apply_out (hg.blkSize ▸ hj)]
  · funext j
    unfold stored
    rw [hg.blkSize]
    split_ifs with hj
    · exact hblk i hi' j hj
    · rw [view_apply_out hj]

/-- A load changes nothing that a reader sees. -/
theorem kblockLoadPage_blockView (hR : Reliable vt block b) (hc : Coherent block b d) (hb : b.buffered = true) {idx : ℕ}
    (hi : idx < b.blkCnt) :
    ∃ b' d', kblockLoadPage vt b d idx = (true, b', d') ∧ SameGeometry b b' ∧ b'.currBlk = idx ∧
      Coherent block b' d' ∧ (∀ i < b.blkCnt, blockView block b' d' i = blockView block b d i) ∧
      ∀ i < b.blkCnt, stored block b' d' i = if idx = b.currBlk then stored block b d i else blockView block b d i := by
  unfold kblockLoadPage
  by_cases heq : idx = b.currBlk
  · rw [if_neg (not_not.mpr heq)]
    exact ⟨b, d, rfl, .refl b, heq.symm, hc, fun _ _ => rfl, fun _ _ => by rw [if_pos heq]⟩
  · rw [if_pos heq]
    obtain ⟨d1, hf, hblk1⟩ := kblockFlush_blockView hR hc hb
    obtain ⟨d2, hr, hblk2⟩ := hR.read d1 idx 0 b.blkSize hi (by simp)
    simp only [hf, kblockLoad, kblockSwLoad, kblockReadDirect, Nat.add_sub_cancel_left, hr, beq_self_eq_true]
    refine ⟨_, _, rfl, ⟨rfl, rfl, rfl, rfl, rfl⟩, rfl, ?_⟩
    have hbuf : ∀ j < b.blkSize, write b.buf 0 (read (block d1 idx) 0 b.blkSize) j = block d2 idx j := by
      intro j hj
      have hmem := write_of_mem b.buf 0 (read (block d1 idx) 0 b.blkSize) (Nat.zero_le j) (by simpa using hj)
      rw [Nat.sub_zero, getElem?_read _ _ _ hj, Nat.zero_add] at hmem
      exact (Option.some.inj hmem).trans (hblk2 idx hi j hj).symm
    obtain ⟨hc', hview, hst⟩ := @view_loaded σ block b
      { b with dirty := false, buf := write b.buf 0 (read (block d1 idx) 0 b.blkSize), currBlk := idx } d d2 idx
      hi ⟨rfl, rfl, rfl, rfl, rfl⟩ rfl hbuf (fun i hi' j hj => (hblk2 i hi' j hj).trans (hblk1 i hi' j hj))
    exact ⟨hc', hview, fun i hi' => by rw [if_neg heq]; exact hst i hi'⟩

/-- A write to the cache is seen in its block and in no other. -/
theorem view_write_cache {o : ℕ} {bs : List UInt8} {idx : ℕ} (hg : SameGeometry b b') (hcb : b'.currBlk = b.currBlk)
    (hbuf : b'.buf = Mem.write b.buf o bs) (hca : b.Cached idx) (ho : o + bs.length ≤ b.blkSize) (i : ℕ) :
    blockView block b' d i = if i = idx then Mem.write (blockView block b d idx) o bs else blockView block b d i := by
  have hiff : b'.Cached i ↔ i = idx := by
    unfold KBlock.Cached
    rw [hg.buffered, hcb, hca.2]
    exact and_iff_right hca.1
  funext j
  by_cases hj : j < b.blkSize
  · have hj' : j < b'.blkSize := hg.blkSize ▸ hj
    split_ifs with hii
    · rw [view_apply_cached hj' (hiff.mpr hii), hbuf]
      exact write_apply_congr _ _ _ (view_apply_cached hj hca).symm
    · have hn : ¬ b.Cached i := fun h => hii (h.2.trans hca.2.symm)
      rw [view_apply_not_cached hj' (fun h => hii (hiff.mp h)), view_apply_not_cached hj hn]
  · rw [view_apply_out (hg.blkSize ▸ hj)]
    split_ifs
    · rw [write_of_not_mem _ _ _ (by omega), view_apply_out hj]
    · rw [view_apply_out hj]

/-- **Writing**: one block of the view changes, and it is then in the cache of a buffered device. -/
theorem kblockWrite_blockView (hR : Reliable vt block b) (hc : Coherent block b d) {idx o : ℕ} {bs : List UInt8}
    (hi : idx < b.blkCnt) (ho : o + bs.length ≤ b.blkSize) :
    ∃ b' d', kblockWrite vt b d idx bs o = (bs.length, b', d') ∧ SameGeometry b b' ∧ Coherent block b' d' ∧
      (∀ i < b.blkCnt, blockView block b' d' i = if i = idx then Mem.write (blockView block b d idx) o bs
        else blockView block b d i) ∧
      (∀ i < b.blkCnt, stored block b' d' i = if b.buffered = true then
        (if idx = b.currBlk then stored block b d i else blockView block b d i) else blockView block b' d' i) ∧
      (b.buffered = true → b'.currBlk = idx ∧ b'.dirty = true) := by
  unfold kblockWrite
  by_cases hb : b.buffered = true
  · rw [if_pos hb]
    obtain ⟨b1, d1, hl, hg, hcb, hc1, hview, hst⟩ := kblockLoadPage_blockView hR hc hb hi
    rw [hl]
    have hca1 : b1.Cached idx := ⟨hg.buffered.trans hb, hcb.symm⟩
    refine ⟨_, _, rfl, hg.trans ⟨rfl, rfl, rfl, rfl, rfl⟩, fun _ => ⟨?_, by simp [kblockSetDirty]⟩, fun i hi' => ?_,
      fun i hi' => ?_, fun _ => ⟨hcb, rfl⟩⟩
    · exact (hc1 (hg.buffered.trans hb)).1
    · rw [← hview i hi', ← hview idx hi]
      exact @view_write_cache σ block b1 { kblockSetDirty b1 true with buf := write b1.buf o bs } d1 o bs idx
        ⟨rfl, rfl, rfl, rfl, rfl⟩ rfl rfl hca1 (hg.blkSize ▸ ho) i
    · rw [if_pos hb]
      exact hst i hi'
  · rw [if_neg hb]
    obtain ⟨d', hw, hblk⟩ := hR.write d idx o bs hi ho
    have hnc : ∀ i, ¬ b.Cached i := fun i h => hb h.1
    have hviews : ∀ i d, blockView block b d i = stored block b d i := fun i d => view_of_not_cached (hnc i)
    simp only [kblockWriteDirect, hw]
    refine ⟨b, d', rfl, .refl b, fun h => absurd h hb, fun i hi' => ?_, fun i hi' => ?_, fun h => absurd h hb⟩
    · funext j
      by_cases hj : j < b.blkSize
      · rw [view_apply_not_cached hj (hnc i), hblk i hi' j hj]
        split_ifs with hii
        · exact write_apply_congr _ _ _ (view_apply_not_cached hj (hnc idx)).symm
        · rw [view_apply_not_cached hj (hnc i)]
      · rw [view_apply_out hj]
        split_ifs
        · rw [write_of_not_mem _ _ _ (by omega), view_apply_out hj]
        · rw [view_apply_out hj]
    · rw [if_neg hb, hviews]

/-! ## Copies -/

/-- The states that reads and flushes lead to. -/
inductive Later (vt : KBlockVTable σ) (b : KBlock) (d : σ) : KBlock → σ → Prop
  | refl : Later vt b d b d
  | read {b' : KBlock} {d' : σ} (idx offset size : ℕ) (hi : idx < b'.blkCnt) (ho : offset + size ≤ b'.blkSize)
      (run : Later vt b d b' d') : Later vt b d b' (kblockRead vt b' d' idx offset size).2
  | flush {b' : KBlock} {d' : σ} (run : Later vt b d b' d') :
      Later vt b d (kblockFlush vt b' d').2.1 (kblockFlush vt b' d').2.2

/-- Reads and flushes cannot be seen. -/
theorem Later.keeps {d' : σ} (hR : Reliable vt block b) (hc : Coherent block b d) (hb : b.buffered = true)
    (h : Later vt b d b' d') : SameGeometry b b' ∧ Coherent block b' d' ∧
      ∀ i < b.blkCnt, blockView block b' d' i = blockView block b d i := by
  induction h with
  | refl => exact ⟨.refl b, hc, fun _ _ => rfl⟩
  | @read b₁ d₁ idx o n hi ho _ ih =>
    obtain ⟨hg, hc₁, hview⟩ := ih
    obtain ⟨d₂, hr, hsame⟩ := kblockRead_blockView (d := d₁) (hR.same hg) hi ho
    rw [hr]
    exact ⟨hg, hc₁.congr hsame, fun i hi' => ((view_congr hsame (hg.blkCnt ▸ hi')).1).trans (hview i hi')⟩
  | @flush b₁ d₁ _ ih =>
    obtain ⟨hg, hc₁, hview⟩ := ih
    have hb₁ := hg.buffered.trans hb
    obtain ⟨d₂, hf, hblk⟩ := kblockFlush_blockView (hR.same hg) hc₁ hb₁
    have hlt := (hc₁ hb₁).1
    obtain ⟨hc₂, hview₂, -⟩ := @view_loaded σ block b₁ { b₁ with dirty := false } d₁ d₂ b₁.currBlk hlt
      ⟨rfl, rfl, rfl, rfl, rfl⟩ rfl (fun j hj => by rw [hblk _ hlt j hj, view_apply_cached hj ⟨hb₁, rfl⟩]) hblk
    rw [hf]
    exact ⟨hg.trans ⟨rfl, rfl, rfl, rfl, rfl⟩, hc₂, fun i hi => (hview₂ i (hg.blkCnt ▸ hi)).trans (hview i hi)⟩

/-- The view after a copy: behind a cached source, the contents that the device holds show again. -/
theorem kblockCopy_blockView (hR : Reliable vt block b) (hc : Coherent block b d) (hb : b.buffered = true)
    {src dest : ℕ} (hs : src < b.blkCnt) (hd : dest < b.blkCnt) :
    ∃ b' d', kblockCopy vt b d src dest = (true, b', d') ∧ SameGeometry b b' ∧ Coherent block b' d' ∧
      ∀ i < b.blkCnt, blockView block b' d' i = if i = dest then blockView block b d src else
        if src = b.currBlk then stored block b d i else blockView block b d i := by
  unfold kblockCopy
  rw [if_pos hb]
  obtain ⟨b₁, d₁, hl, hg, hcb, hc₁, hview, hst⟩ := kblockLoadPage_blockView hR hc hb hs
  rw [hl]
  have hg₂ : SameGeometry b₁ (kblockSetDirty { b₁ with currBlk := dest } true) := ⟨rfl, rfl, rfl, rfl, rfl⟩
  refine ⟨_, _, rfl, hg.trans hg₂, fun _ => ⟨hg.blkCnt ▸ hd, by simp [kblockSetDirty]⟩, fun i hi => ?_⟩
  split
  · next hdest =>
    rw [← hview src hs]
    refine view_ext rfl fun j _ => ?_
    rw [if_pos ⟨hg.buffered.trans hb, hdest⟩, if_pos ⟨hg.buffered.trans hb, hcb.symm⟩]
    rfl
  · next hdest =>
    rw [← hst i hi]
    exact view_of_not_cached fun h => hdest h.2

/-- A clean block, or one that the device holds as it is in the cache. -/
theorem stored_eq_view (hc : Coherent block b d) (hb : b.buffered = true) {src : ℕ}
    (hclean : src = b.currBlk → b.dirty = true → ∀ j < b.blkSize, b.buf j = block d src j) (hsrc : src = b.currBlk)
    (i : ℕ) : stored block b d i = blockView block b d i := by
  by_cases hi : i = b.currBlk
  · subst hi hsrc
    funext j
    simp only [stored, blockView, KBlock.Cached, hb, and_self, if_true]
    split_ifs with hj
    · cases hdirty : b.dirty with
      | true => exact (hclean rfl hdirty j hj).symm
      | false => exact ((hc hb).2 hdirty j hj).symm
    · rfl
  · exact (view_of_not_cached fun h => hi h.2).symm

/-- **Copying a block changes only the destination**, for what is read at once and after any flushes, exactly if the
source is not in the cache with contents that the device does not hold. -/
theorem kblockCopy_reads_iff (hb : b.buffered = true) (hR : Reliable vt block b) (hc : Coherent block b d)
    {src dest : ℕ} (hs : src < b.blkCnt) (hd : dest < b.blkCnt) (hne : src ≠ dest) :
    ∃ b' d', kblockCopy vt b d src dest = (true, b', d') ∧
      ((∀ b'' d'', Later vt b' d' b'' d'' → ∀ i < b.blkCnt, ∀ o n, o + n ≤ b.blkSize →
        (kblockRead vt b'' d'' i o n).1 = (kblockRead vt b d (if i = dest then src else i) o n).1) ↔
      (src = b.currBlk → b.dirty = true → ∀ j < b.blkSize, b.buf j = block d src j)) := by
  obtain ⟨b', d', hcopy, hg, hc', hview⟩ := kblockCopy_blockView hR hc hb hs hd
  -- what a read gives, before the copy and in every later state
  have hbefore : ∀ {i o n}, i < b.blkCnt → o + n ≤ b.blkSize →
      (kblockRead vt b d i o n).1 = (Mem.read (blockView block b d i) o n, n) := by
    intro i o n hi ho
    obtain ⟨_, hr, -⟩ := kblockRead_blockView (d := d) hR hi ho
    rw [hr]
  have hafter : ∀ {b'' d'' i o n}, Later vt b' d' b'' d'' → i < b.blkCnt → o + n ≤ b.blkSize →
      (kblockRead vt b'' d'' i o n).1 = (Mem.read (blockView block b' d' i) o n, n) := by
    intro b'' d'' i o n hlater hi ho
    obtain ⟨hg', -, hview'⟩ := hlater.keeps (hR.same hg) hc' (hg.buffered.trans hb)
    have hgg := hg.trans hg'
    obtain ⟨_, hr, -⟩ := kblockRead_blockView (d := d'') (hR.same hgg) (hgg.blkCnt ▸ hi) (hgg.blkSize ▸ ho)
    rw [hr, hview' i (hg.blkCnt ▸ hi)]
  refine ⟨b', d', hcopy, fun hreads hsrc _ j hj => ?_, fun hclean b'' d'' hlater i hi o n ho => ?_⟩
  · -- the read of the source gives what the device holds of it
    have hall : 0 + b.blkSize ≤ b.blkSize := Nat.le_of_eq (Nat.zero_add _)
    have hsame := hreads b' d' .refl src hs 0 b.blkSize hall
    rw [hafter .refl hs hall, if_neg hne, hbefore hs hall, hview src hs, if_neg hne, if_pos hsrc] at hsame
    have hbyte := congrArg (fun r => r.1[j]?) hsame
    simp only [getElem?_read _ _ _ hj, Option.some.injEq, Nat.zero_add, stored, hj, if_true] at hbyte
    rw [hbyte, view_apply_cached hj ⟨hb, hsrc⟩]
  · rw [hafter hlater hi ho, hview i hi, hbefore (by split <;> assumption) ho]
    congr 2
    split
    · rfl
    · split
      · next hsrc => exact stored_eq_view hc hb hclean hsrc i
      · rfl

end

/-! ## The memory device -/

def ramBlock (blkSize : ℕ) (membuf : ℕ → UInt8) (idx j : ℕ) : UInt8 := membuf (idx * blkSize + j)

/-- Different blocks do not overlap. -/
theorem block_disjoint {blkSize i idx j : ℕ} (h : i ≠ idx) (hj : j < blkSize) :
    i * blkSize + j < idx * blkSize ∨ (idx + 1) * blkSize ≤ i * blkSize + j := by
  rcases Nat.lt_or_gt_of_ne h with hlt | hlt
  · have := Nat.mul_le_mul_right blkSize (Nat.succ_le_of_lt hlt)
    rw [Nat.succ_mul] at this
    omega
  · exact .inr (Nat.le_add_right_of_le (Nat.mul_le_mul_right blkSize hlt))

/-- The RAM device is reliable. -/
theorem reliable_ram (membuf : ℕ → UInt8) (size blkSize : ℕ) (buffered : Bool) :
    Reliable (kblockramVt blkSize) (ramBlock blkSize) (kblockramInit membuf size blkSize buffered) where
  read m idx o n _ _ := by
    refine ⟨m, ?_, fun _ _ _ _ => rfl⟩
    simp only [kblockramVt, kblockramInit, Nat.zero_add, Prod.mk.injEq, and_true]
    refine read_eq_of_forall (by simp) fun i hi => ?_
    rw [getElem?_read _ _ _ hi, ramBlock, Nat.add_assoc]
  write m idx o bs _ ho := by
    refine ⟨write m (idx * blkSize + o) bs, by simp [kblockramVt, kblockramInit], fun i _ j hj => ?_⟩
    change o + bs.length ≤ blkSize at ho
    change j < blkSize at hj
    unfold ramBlock
    by_cases hi : i = idx
    · subst hi
      rw [if_pos rfl]
      unfold write
      by_cases hoj : o ≤ j
      · rw [if_pos (by omega), if_pos hoj]
        congr 2
        omega
      · rw [if_neg (by omega), if_neg hoj]
    · have hout := block_disjoint hi hj
      rw [Nat.succ_mul] at hout
      rw [if_neg hi, write_of_not_mem _ _ _ (by omega)]

theorem coherent_ram (membuf : ℕ → UInt8) (size blkSize : ℕ) (buffered : Bool)
    (hcnt : 0 < (kblockramInit membuf size blkSize buffered).blkCnt) :
    Coherent (ramBlock blkSize) (kblockramInit membuf size blkSize buffered) membuf := by
  intro hb
  refine ⟨hcnt, fun _ j hj => ?_⟩
  obtain rfl : buffered = true := hb
  change j < blkSize at hj
  have hmem := write_of_mem (fun _ => (0 : UInt8)) 0 (read membuf 0 blkSize) (Nat.zero_le j) (by simpa using hj)
  rw [Nat.sub_zero, getElem?_read _ _ _ hj] at hmem
  simpa [kblockramInit, ramBlock] using hmem

/-- A memory device whose first block is in the cache, unmodified. -/
theorem kblockCopy_reads_iff_ram :
    ∃ b' d', kblockCopy (kblockramVt 2) (kblockramInit (fun a => UInt8.ofNat a) 8 2 true) (fun a => UInt8.ofNat a) 0 1 =
      (true, b', d') ∧ (kblockRead (kblockramVt 2) b' d' 0 0 2).1 = ([0, 1], 2) := by
  obtain ⟨b', d', hcopy, hiff⟩ := kblockCopy_reads_iff rfl (reliable_ram (fun a => UInt8.ofNat a) 8 2 true)
    (coherent_ram (fun a => UInt8.ofNat a) 8 2 true (by decide)) (show 0 < 3 by decide) (show 1 < 3 by decide)
    (by decide)
  exact ⟨b', d', hcopy, hiff.mpr nofun b' d' .refl 0 (by decide) 0 2 (by decide)⟩

/-- A byte is written to block 0, which is in the cache and now modified, and the block is copied to block 1: block 0
then reads as before the write. -/
theorem kblockCopy_loses :
    let r := kblockWrite (kblockramVt 1) (kblockramInit (fun _ => 0) 4 1 true) (fun _ => 0) 0 [7] 0
    let c := kblockCopy (kblockramVt 1) r.2.1 r.2.2 0 1
    (kblockRead (kblockramVt 1) r.2.1 r.2.2 0 0 1).1 = ([7], 1) ∧ c.1 = true ∧
      (kblockRead (kblockramVt 1) c.2.1 c.2.2 0 0 1).1 = ([0], 1) := by
  decide

end Bertos
