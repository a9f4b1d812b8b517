import Bertos.Io.KBlockView

/-!
# A buffered device is an array of blocks

`kblock_trim` gives a descriptor other numbers for its blocks while a block is in the cache. What a descriptor does is
what the one of the whole device, `b.whole n`, does with the physical numbers (`kblockRead_whole` and the lemmas after
it), so a trim keeps the view of the whole device. Hence every sequence of calls is one on the reference array
`RefBlocks` (`kbRun_eq_refRun`).
-/

namespace Bertos

variable {σ : Type}

/-! ## Calls -/

inductive KbCall
  | read (idx offset size : ℕ)
  | write (idx : ℕ) (bs : List UInt8) (offset : ℕ)
  | flush
  | trim (start count : ℕ)

/-- The bytes of a read, and the value that is returned. -/
inductive KbResult
  | read (bs : List UInt8) (n : ℕ)
  | written (n : ℕ)
  | done (ok : Bool)

def kbStep (vt : KBlockVTable σ) (b : KBlock) (d : σ) : KbCall → KbResult × KBlock × σ
  | .read idx offset size =>
    let r := kblockRead vt b d idx offset size
    (.read r.1.1 r.1.2, b, r.2)
  | .write idx bs offset =>
    let r := kblockWrite vt b d idx bs offset
    (.written r.1, r.2.1, r.2.2)
  | .flush =>
    let r := kblockFlush vt b d
    (.done r.1, r.2.1, r.2.2)
  | .trim start count =>
    let r := kblockTrim vt b d start count
    (.done r.1, r.2.1, r.2.2)

def kbRun (vt : KBlockVTable σ) : KBlock → σ → List KbCall → List KbResult × KBlock × σ
  | b, d, [] => ([], b, d)
  | b, d, call :: calls =>
    let r := kbStep vt b d call
    let rs := kbRun vt r.2.1 r.2.2 calls
    (r.1 :: rs.1, rs.2.1, rs.2.2)

/-! ## The reference array -/

/-- The blocks of the device as they were when last visible, of which `cnt` from `start` on are visible. -/
structure RefBlocks where
  blocks : ℕ → ℕ → UInt8
  start : ℕ
  cnt : ℕ

/-- Writes are applied at once, and a trim selects a part of what is visible. -/
def refStep (r : RefBlocks) : KbCall → KbResult × RefBlocks
  | .read idx offset size => (.read (Mem.read (r.blocks (r.start + idx)) offset size) size, r)
  | .write idx bs offset =>
    (.written bs.length, { r with
      blocks := fun i => if i = r.start + idx then Mem.write (r.blocks i) offset bs else r.blocks i })
  | .flush => (.done true, r)
  | .trim start count => (.done true, { r with start := r.start + start, cnt := count })

def refRun : RefBlocks → List KbCall → List KbResult × RefBlocks
  | r, [] => ([], r)
  | r, call :: calls =>
    let r₁ := refStep r call
    let rs := refRun r₁.2 calls
    (r₁.1 :: rs.1, rs.2)

/-- The ranges that are asserted; a trim does not start at the end. -/
def InRange (blkSize : ℕ) (r : RefBlocks) : KbCall → Prop
  | .read idx offset size => idx < r.cnt ∧ offset + size ≤ blkSize
  | .write idx bs offset => idx < r.cnt ∧ offset + bs.length ≤ blkSize
  | .flush => True
  | .trim start count => start < r.cnt ∧ start + count ≤ r.cnt

def AllInRange (blkSize : ℕ) : RefBlocks → List KbCall → Prop
  | _, [] => True
  | r, call :: calls => InRange blkSize r call ∧ AllInRange blkSize (refStep r call).2 calls

/-! ## The whole device -/

/-- The descriptor of the device before it was trimmed, with `n` blocks. -/
def KBlock.whole (b : KBlock) (n : ℕ) : KBlock :=
  { b with blkStart := 0, currBlk := b.blkStart + b.currBlk, blkCnt := n }

section Whole

variable (vt : KBlockVTable σ) (b : KBlock) (d : σ) (n : ℕ)

theorem kblockRead_whole (idx o k : ℕ) :
    kblockRead vt (b.whole n) d (b.blkStart + idx) o k = kblockRead vt b d idx o k := by
  have hcond : (b.blkStart + idx == b.blkStart + b.currBlk) = (idx == b.currBlk) := by
    rw [Bool.eq_iff_iff, beq_iff_eq, beq_iff_eq, Nat.add_left_cancel_iff]
  simp only [kblockRead, kblockReadDirect, KBlock.whole, hcond, Nat.zero_add]

theorem kblockStore_whole : kblockStore vt (b.whole n) d (b.whole n).currBlk = kblockStore vt b d b.currBlk := by
  simp only [kblockStore, kblockSwStore, kblockWriteDirect, KBlock.whole, Nat.zero_add, Nat.sub_zero,
    Nat.add_sub_cancel_left]

theorem kblockFlush_whole :
    kblockFlush vt (b.whole n) d =
      ((kblockFlush vt b d).1, (kblockFlush vt b d).2.1.whole n, (kblockFlush vt b d).2.2) := by
  unfold kblockFlush
  rw [kblockStore_whole]
  by_cases hb : b.buffered = true
  · rw [if_pos hb, if_pos (show (b.whole n).buffered = true from hb)]
    by_cases hd : kblockCacheDirty b = true
    · rw [if_pos hd, if_pos (show kblockCacheDirty (b.whole n) = true from hd)]
      rcases kblockStore vt b d b.currBlk with ⟨_ | _, d'⟩ <;> rfl
    · rw [if_neg hd, if_neg (show ¬ kblockCacheDirty (b.whole n) = true from hd)]
  · rw [if_neg hb, if_neg (show ¬ (b.whole n).buffered = true from hb)]

theorem kblockLoad_whole (idx : ℕ) : kblockLoad vt (b.whole n) d (b.blkStart + idx) =
    ((kblockLoad vt b d idx).1, (kblockLoad vt b d idx).2.1.whole n, (kblockLoad vt b d idx).2.2) := by
  simp only [kblockLoad, kblockSwLoad, kblockReadDirect, KBlock.whole, Nat.zero_add, Nat.sub_zero,
    Nat.add_sub_cancel_left]

theorem kblockLoad_blkStart (idx : ℕ) : (kblockLoad vt b d idx).2.1.blkStart = b.blkStart := rfl

/-- A load through a view is a load of the whole device, the start added. -/
theorem kblockLoadPage_whole (idx : ℕ) : kblockLoadPage vt (b.whole n) d (b.blkStart + idx) =
    ((kblockLoadPage vt b d idx).1, (kblockLoadPage vt b d idx).2.1.whole n, (kblockLoadPage vt b d idx).2.2) := by
  unfold kblockLoadPage
  by_cases heq : idx = b.currBlk
  · have heq' : b.blkStart + idx = (b.whole n).currBlk := congrArg (b.blkStart + ·) heq
    rw [if_neg (not_not.mpr heq), if_neg (not_not.mpr heq')]
  · have hne : b.blkStart + idx ≠ (b.whole n).currBlk := fun h => heq (Nat.add_left_cancel h)
    have hg := (kblockFlush_geometry vt b d).blkStart
    rw [if_pos heq, if_pos hne, kblockFlush_whole]
    generalize kblockFlush vt b d = r at hg ⊢
    obtain ⟨_ | _, b', d'⟩ := r
    · rfl
    · simp only at hg ⊢
      rw [← hg, kblockLoad_whole]
      have hstart := kblockLoad_blkStart vt b' d' idx
      generalize kblockLoad vt b' d' idx = r at hstart ⊢
      obtain ⟨_ | _, b'', d''⟩ := r
      · rfl
      · simp only [KBlock.whole, ← show b''.blkStart = b'.blkStart from hstart]

theorem kblockWrite_whole (hb : b.buffered = true) (idx : ℕ) (bs : List UInt8) (o : ℕ) :
    kblockWrite vt (b.whole n) d (b.blkStart + idx) bs o =
      ((kblockWrite vt b d idx bs o).1, (kblockWrite vt b d idx bs o).2.1.whole n,
        (kblockWrite vt b d idx bs o).2.2) := by
  unfold kblockWrite
  rw [if_pos hb, if_pos (show (b.whole n).buffered = true from hb), kblockLoadPage_whole]
  generalize kblockLoadPage vt b d idx = r
  obtain ⟨_ | _, b', d'⟩ := r <;> rfl

/-- After a trim the whole device is as the load of its first block left it. -/
theorem kblockTrim_whole (hb : b.buffered = true) {start : ℕ} (count : ℕ)
    (hload : (kblockLoadPage vt b d start).1 = true) :
    (kblockTrim vt b d start count).1 = true ∧
      (kblockTrim vt b d start count).2.1.whole n = (kblockLoadPage vt b d start).2.1.whole n ∧
      (kblockTrim vt b d start count).2.2 = (kblockLoadPage vt b d start).2.2 ∧
      (kblockTrim vt b d start count).2.1.blkStart = b.blkStart + start ∧
      (kblockTrim vt b d start count).2.1.blkCnt = count := by
  have hcurr := kblockLoadPage_currBlk vt b d hload
  have hg := (kblockLoadPage_geometry vt b d start).blkStart
  unfold kblockTrim
  rw [if_pos hb]
  generalize kblockLoadPage vt b d start = r at hload hcurr hg ⊢
  obtain ⟨_ | _, b', d'⟩ := r
  · cases hload
  · simp only at hcurr hg
    refine ⟨rfl, ?_, rfl, congrArg (· + start) hg, rfl⟩
    simp only [KBlock.whole, Nat.add_zero, hcurr]

end Whole

/-! ## Every sequence of calls -/

section Runs

/-- **The view** of the whole device is that of the reference array. -/
structure ArrayInv (vt : KBlockVTable σ) (block : σ → ℕ → ℕ → UInt8) (n blkSize : ℕ) (b : KBlock) (d : σ)
    (r : RefBlocks) : Prop where
  buffered : b.buffered = true
  blkSize : b.blkSize = blkSize
  reliable : Reliable vt block (b.whole n)
  coherent : Coherent block (b.whole n) d
  start : b.blkStart = r.start
  cnt : b.blkCnt = r.cnt
  le : r.start + r.cnt ≤ n
  view : ∀ i < n, blockView block (b.whole n) d i = r.blocks i

variable {vt : KBlockVTable σ} {block : σ → ℕ → ℕ → UInt8} {n blkSize : ℕ} {b : KBlock} {d : σ} {r : RefBlocks}

theorem SameGeometry.whole {b' : KBlock} (h : SameGeometry b b') (n : ℕ) : SameGeometry (b.whole n) (b'.whole n) :=
  ⟨h.buffered, h.partialWrite, rfl, h.blkSize, rfl⟩

theorem ArrayInv.same {b' : KBlock} {d' : σ} {blocks : ℕ → ℕ → UInt8} (h : ArrayInv vt block n blkSize b d r)
    (hg : SameGeometry b b') (hc : Coherent block (b'.whole n) d')
    (hview : ∀ i < n, blockView block (b'.whole n) d' i = blocks i) :
    ArrayInv vt block n blkSize b' d' { r with blocks := blocks } where
  buffered := hg.buffered.trans h.buffered
  blkSize := hg.blkSize.trans h.blkSize
  reliable := h.reliable.same (hg.whole n)
  coherent := hc
  start := hg.blkStart.trans h.start
  cnt := hg.blkCnt.trans h.cnt
  le := h.le
  view := hview

section
variable (h : ArrayInv vt block n blkSize b d r)
include h

/-- A flush brings the device in line with the reference. -/
theorem ArrayInv.flush : ∃ b' d', kblockFlush vt b d = (true, b', d') ∧
    ArrayInv vt block n blkSize b' d' r ∧ ∀ i < n, ∀ j < blkSize, block d' i j = r.blocks i j := by
  obtain ⟨d', hflush, hblk⟩ := kblockFlush_blockView h.reliable h.coherent h.buffered
  have hg := kblockFlush_geometry vt b d
  rw [kblockFlush_whole] at hflush
  generalize kblockFlush vt b d = res at hflush hg ⊢
  obtain ⟨ok, b', d''⟩ := res
  simp only [Prod.mk.injEq] at hflush hg
  obtain ⟨rfl, hwhole, rfl⟩ := hflush
  have hlt := (h.coherent h.buffered).1
  have hbuf : ∀ j < (b.whole n).blkSize, (b'.whole n).buf j = block d'' (b.whole n).currBlk j := by
    intro j hj
    rw [hblk _ hlt j hj, view_apply_cached hj ⟨h.buffered, rfl⟩, hwhole]
  obtain ⟨hc, hview, -⟩ := view_loaded hlt (hg.whole n) (by rw [hwhole]) hbuf hblk
  refine ⟨b', d'', rfl, h.same hg hc fun i hi => (hview i hi).trans (h.view i hi), fun i hi j hj => ?_⟩
  rw [hblk i hi j (h.blkSize.symm ▸ hj), h.view i hi]

/-- A write is the reference's write, -/
theorem ArrayInv.write {idx o : ℕ} {bs : List UInt8} (hi : idx < r.cnt) (ho : o + bs.length ≤ blkSize) :
    ∃ b' d', kblockWrite vt b d idx bs o = (bs.length, b', d') ∧
      ArrayInv vt block n blkSize b' d' (refStep r (.write idx bs o)).2 := by
  have hle := h.le
  have hin : b.blkStart + idx < n := by rw [h.start]; omega
  obtain ⟨w, d', hwrite, -, hc, hview, -⟩ :=
    @kblockWrite_blockView σ vt block (b.whole n) d h.reliable h.coherent (b.blkStart + idx) o bs hin
      (h.blkSize.symm ▸ ho)
  have hg := kblockWrite_geometry vt b d idx bs o
  rw [kblockWrite_whole vt b d n h.buffered] at hwrite
  generalize kblockWrite vt b d idx bs o = res at hwrite hg ⊢
  obtain ⟨k, b', d''⟩ := res
  cases hwrite
  refine ⟨b', d'', rfl, h.same hg hc fun i hi' => ?_⟩
  rw [hview i hi', h.start]
  split
  · next heq => rw [← heq, h.view i hi']
  · rw [h.view i hi']

/-- and a trim the reference's trim. -/
theorem ArrayInv.trim {start count : ℕ} (hs : start < r.cnt) (hcount : start + count ≤ r.cnt) :
    ∃ b' d', kblockTrim vt b d start count = (true, b', d') ∧
      ArrayInv vt block n blkSize b' d' (refStep r (.trim start count)).2 := by
  have hle := h.le
  have hin : b.blkStart + start < n := by rw [h.start]; omega
  obtain ⟨w, d', hload, -, -, hc, hview, -⟩ :=
    @kblockLoadPage_blockView σ vt block (b.whole n) d h.reliable h.coherent h.buffered (b.blkStart + start) hin
  rw [kblockLoadPage_whole] at hload
  simp only [Prod.mk.injEq] at hload
  obtain ⟨hok, rfl, rfl⟩ := hload
  obtain ⟨htrim, hwhole, hd, hstart, hcnt⟩ := kblockTrim_whole vt b d n h.buffered count hok
  have hg := kblockLoadPage_geometry vt b d start
  generalize kblockTrim vt b d start count = res at htrim hwhole hd hstart hcnt ⊢
  obtain ⟨ok, b', d''⟩ := res
  obtain rfl : ok = true := htrim
  simp only at hwhole hd hstart hcnt
  have hg' : SameGeometry (b.whole n) (b'.whole n) := hwhole ▸ hg.whole n
  refine ⟨b', d'', rfl, hg'.buffered.trans h.buffered, hg'.blkSize.trans h.blkSize, h.reliable.same hg', ?_, ?_, hcnt,
    ?_, ?_⟩
  · rw [hwhole, hd]
    exact hc
  · rw [hstart, h.start]
    rfl
  · show r.start + start + count ≤ n
    omega
  · intro i hi
    rw [hwhole, hd]
    exact (hview i hi).trans (h.view i hi)

/-- **One call**: the result is that of the reference array, and the array is still the view. -/
theorem kbStep_spec (call : KbCall) (hin : InRange blkSize r call) :
    ∃ b' d', kbStep vt b d call = ((refStep r call).1, b', d') ∧ ArrayInv vt block n blkSize b' d'
      (refStep r call).2 := by
  cases call with
  | read idx o k =>
    have hle := h.le
    have hi : b.blkStart + idx < n := by
      rw [h.start]
      have := hin.1
      omega
    obtain ⟨d', hread, hsame⟩ :=
      @kblockRead_blockView σ vt block (b.whole n) d h.reliable (b.blkStart + idx) o k hi (h.blkSize.symm ▸ hin.2)
    rw [kblockRead_whole, h.view _ hi, h.start] at hread
    refine ⟨b, d', ?_, h.same (.refl b) (h.coherent.congr hsame) fun i hi' => ?_⟩
    · simp only [kbStep, hread, refStep]
    · rw [(view_congr hsame hi').1, h.view i hi']
  | write idx bs o =>
    obtain ⟨b', d', hwrite, h'⟩ := h.write hin.1 hin.2
    exact ⟨b', d', by rw [kbStep, hwrite]; rfl, h'⟩
  | flush =>
    obtain ⟨b', d', hflush, h', -⟩ := h.flush
    exact ⟨b', d', by rw [kbStep, hflush]; rfl, h'⟩
  | trim start count =>
    obtain ⟨b', d', htrim, h'⟩ := h.trim hin.1 hin.2
    exact ⟨b', d', by rw [kbStep, htrim]; rfl, h'⟩

end

/-- A sequence of calls, by induction over them. -/
theorem kbRun_spec (calls : List KbCall) (h : ArrayInv vt block n blkSize b d r) (hin : AllInRange blkSize r calls) :
    ∃ b' d', kbRun vt b d calls = ((refRun r calls).1, b', d') ∧ ArrayInv vt block n blkSize b' d'
      (refRun r calls).2 := by
  induction calls generalizing b d r with
  | nil => exact ⟨b, d, rfl, h⟩
  | cons call calls ih =>
    obtain ⟨b1, d1, hstep, h1⟩ := kbStep_spec h call hin.1
    obtain ⟨b2, d2, hrun, h2⟩ := ih h1 hin.2
    exact ⟨b2, d2, by simp only [kbRun, hstep, hrun, refRun], h2⟩

/-- **A buffered device behaves as an array of blocks**: the results of every sequence of calls are those of
the reference array, and after a flush the device holds it, with the blocks that are not visible as they were
when last visible. -/
theorem kbRun_eq_refRun {vt : KBlockVTable σ} {block : σ → ℕ → ℕ → UInt8} {n : ℕ} {b : KBlock} {d : σ}
    (hb : b.buffered = true) (hR : Reliable vt block (b.whole n)) (hc : Coherent block (b.whole n) d)
    (hle : b.blkStart + b.blkCnt ≤ n) (calls : List KbCall)
    (hin : AllInRange b.blkSize ⟨blockView block (b.whole n) d, b.blkStart, b.blkCnt⟩ calls) :
    ∃ b' d', kbRun vt b d calls = ((refRun ⟨blockView block (b.whole n) d, b.blkStart, b.blkCnt⟩ calls).1, b', d') ∧
      ∃ b'' d'', kblockFlush vt b' d' = (true, b'', d'') ∧ ∀ i < n, ∀ j < b.blkSize,
        block d'' i j = (refRun ⟨blockView block (b.whole n) d, b.blkStart, b.blkCnt⟩ calls).2.blocks i j := by
  have hinv : ArrayInv vt block n b.blkSize b d ⟨blockView block (b.whole n) d, b.blkStart, b.blkCnt⟩ :=
    ⟨hb, rfl, hR, hc, rfl, rfl, hle, fun _ _ => rfl⟩
  obtain ⟨b', d', hrun, hinv'⟩ := kbRun_spec calls hinv hin
  obtain ⟨b'', d'', hflush, -, hblk⟩ := hinv'.flush
  exact ⟨b', d', hrun, b'', d'', hflush, hblk⟩

/-- A write that is in the cache, two trims around it and a read, on a device of four blocks in memory. -/
theorem kbRun_eq_refRun_trimmed :
    ∃ b' d', kbRun (kblockramVt 4) (kblockramInit (fun _ => 0) 20 4 true) (fun _ => 0)
      [.write 2 [7, 8] 1, .trim 1 3, .trim 1 1, .read 0 0 4, .flush] =
        ([.written 2, .done true, .done true, .read [0, 7, 8, 0] 4, .done true], b', d') := by
  obtain ⟨b', d', hrun, -⟩ := kbRun_eq_refRun (n := 4) (b := kblockramInit (fun _ => 0) 20 4 true) (d := fun _ => 0)
    rfl (reliable_ram (fun _ => 0) 20 4 true) (coherent_ram (fun _ => 0) 20 4 true (by decide)) (by decide)
    [.write 2 [7, 8] 1, .trim 1 3, .trim 1 1, .read 0 0 4, .flush]
      (by simp [AllInRange, InRange, refStep, kblockramInit])
  exact ⟨b', d', hrun⟩

end Runs

end Bertos
