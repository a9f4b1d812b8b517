import Bertos.Lib.Mem

/-!
# Block devices (`bertos/io/kblock.c`)

A `KBlock` describes a device cut into blocks, with an optional one-block write-back cache. The state of the device, of
type `σ`, is kept apart, since several descriptors may share one device; the driver is a `KBlockVTable σ`. A read
stores a list of bytes in the caller's buffer and returns a count, which is smaller on errors; what returns `0` or
`EOF` in C returns `true` or `false` here. Buffered devices use the software cache functions (`kblock_swLoad` and so
on).
-/

namespace Bertos

/-- A driver: the bytes a direct read stores and the count it returns; the count a direct write returns. -/
structure KBlockVTable (σ : Type) where
  readDirect : σ → (idx offset size : ℕ) → (List UInt8 × ℕ) × σ
  writeDirect : σ → (idx : ℕ) → List UInt8 → (offset : ℕ) → ℕ × σ

/-- A block device descriptor; the first three fields are the flags `KB_BUFFERED`, `KB_CACHE_DIRTY` and
`KB_PARTIAL_WRITE`. -/
structure KBlock where
  buffered : Bool
  dirty : Bool
  partialWrite : Bool
  buf : ℕ → UInt8
  blkStart : ℕ
  currBlk : ℕ
  blkSize : ℕ
  blkCnt : ℕ

variable {σ : Type} (vt : KBlockVTable σ) (b : KBlock) (d : σ)

/-- The predicate `kblock_cacheDirty`. -/
def kblockCacheDirty : Bool := b.buffered && b.dirty

def kblockReadDirect (idx offset size : ℕ) : (List UInt8 × ℕ) × σ :=
  vt.readDirect d (b.blkStart + idx) offset size

def kblockWriteDirect (idx : ℕ) (bs : List UInt8) (offset : ℕ) : ℕ × σ :=
  vt.writeDirect d (b.blkStart + idx) bs offset

def kblockSetDirty (dirty : Bool) : KBlock := { b with dirty := dirty }

/-- `index` is physical: the start of the trimmed device is subtracted again. -/
def kblockSwLoad (index : ℕ) : Bool × KBlock × σ :=
  match kblockReadDirect vt b d (index - b.blkStart) 0 b.blkSize with
  | ((bs, n), d') => (n == b.blkSize, { b with buf := Mem.write b.buf 0 bs }, d')

def kblockSwStore (index : ℕ) : Bool × σ :=
  match kblockWriteDirect vt b d (index - b.blkStart) (Mem.read b.buf 0 b.blkSize) 0 with
  | (n, d') => (n == b.blkSize, d')

def kblockLoad (idx : ℕ) : Bool × KBlock × σ := kblockSwLoad vt b d (b.blkStart + idx)

def kblockStore (idx : ℕ) : Bool × σ := kblockSwStore vt b d (b.blkStart + idx)

def kblockRead (idx offset size : ℕ) : (List UInt8 × ℕ) × σ :=
  if b.buffered && idx == b.currBlk then ((Mem.read b.buf offset size, size), d)
  else kblockReadDirect vt b d idx offset size

def kblockFlush : Bool × KBlock × σ :=
  if b.buffered then
    if kblockCacheDirty b then
      match kblockStore vt b d b.currBlk with
      | (true, d') => (true, kblockSetDirty b false, d')
      | (false, d') => (false, b, d')
    else (true, b, d)
  else (true, b, d)

def kblockLoadPage (idx : ℕ) : Bool × KBlock × σ :=
  if idx ≠ b.currBlk then
    match kblockFlush vt b d with
    | (false, b', d') => (false, b', d')
    | (true, b', d') =>
      match kblockLoad vt b' d' idx with
      | (false, b'', d'') => (false, b'', d'')
      | (true, b'', d'') => (true, { b'' with currBlk := idx }, d'')
  else (true, b, d)

def kblockTrim (start count : ℕ) : Bool × KBlock × σ :=
  match if b.buffered then kblockLoadPage vt b d start else (true, b, d) with
  | (false, b', d') => (false, b', d')
  | (true, b', d') => (true, { b' with blkStart := b'.blkStart + start, currBlk := 0, blkCnt := count }, d')

def kblockWrite (idx : ℕ) (bs : List UInt8) (offset : ℕ) : ℕ × KBlock × σ :=
  if b.buffered then
    match kblockLoadPage vt b d idx with
    | (false, b', d') => (0, b', d')
    | (true, b', d') =>
      (bs.length, { kblockSetDirty b' true with buf := Mem.write b'.buf offset bs }, d')
  else
    match kblockWriteDirect vt b d idx bs offset with
    | (n, d') => (n, b, d')

/-- The copy loop of an unbuffered device, with `fuel` bounding the number of 16-byte pieces. -/
def kblockCopyLoop (src dest : ℕ) : (fuel blkSize offset : ℕ) → σ → Bool × σ
  | 0, _, _, d => (true, d)
  | fuel + 1, blkSize, offset, d =>
    if blkSize = 0 then (true, d)
    else
      let size := min 16 blkSize
      match kblockReadDirect vt b d src offset size with
      | ((bs, n), d') =>
        if n ≠ size then (false, d')
        else
          match kblockWriteDirect vt b d' dest bs offset with
          | (n', d'') =>
            if n' ≠ size then (false, d'') else kblockCopyLoop src dest fuel (blkSize - size) (offset + size) d''

def kblockCopy (src dest : ℕ) : Bool × KBlock × σ :=
  if b.buffered then
    match kblockLoadPage vt b d src with
    | (false, b', d') => (false, b', d')
    | (true, b', d') => (true, kblockSetDirty { b' with currBlk := dest } true, d')
  else if b.partialWrite then
    match kblockCopyLoop vt b src dest b.blkSize b.blkSize 0 d with
    | (ok, d') => (ok, b, d')
  else (false, b, d)

/-! ## What the accesses leave alone -/

/-- Two descriptors that differ at most in their cache. -/
structure SameGeometry (b b' : KBlock) : Prop where
  buffered : b'.buffered = b.buffered
  partialWrite : b'.partialWrite = b.partialWrite
  blkStart : b'.blkStart = b.blkStart
  blkSize : b'.blkSize = b.blkSize
  blkCnt : b'.blkCnt = b.blkCnt

namespace SameGeometry
variable {b b' b'' : KBlock}

theorem refl (b : KBlock) : SameGeometry b b := ⟨rfl, rfl, rfl, rfl, rfl⟩

theorem trans (h : SameGeometry b b') (h' : SameGeometry b' b'') : SameGeometry b b'' :=
  ⟨h'.1.trans h.1, h'.2.trans h.2, h'.3.trans h.3, h'.4.trans h.4, h'.5.trans h.5⟩

end SameGeometry

theorem kblockFlush_geometry : SameGeometry b (kblockFlush vt b d).2.1 := by
  unfold kblockFlush
  split_ifs
  · rcases kblockStore vt b d b.currBlk with ⟨_ | _, d'⟩ <;> exact ⟨rfl, rfl, rfl, rfl, rfl⟩
  · exact .refl b
  · exact .refl b

theorem kblockLoadPage_geometry (idx : ℕ) : SameGeometry b (kblockLoadPage vt b d idx).2.1 := by
  unfold kblockLoadPage
  split_ifs
  · have hf := kblockFlush_geometry vt b d
    generalize kblockFlush vt b d = r at hf ⊢
    obtain ⟨_ | _, b', d'⟩ := r
    · exact hf
    · simp only [kblockLoad, kblockSwLoad]
      rcases kblockReadDirect vt b' d' (b'.blkStart + idx - b'.blkStart) 0 b'.blkSize with ⟨⟨bs, n⟩, d''⟩
      cases n == b'.blkSize <;> exact hf.trans ⟨rfl, rfl, rfl, rfl, rfl⟩
  · exact .refl b

theorem kblockWrite_geometry (idx : ℕ) (bs : List UInt8) (o : ℕ) :
    SameGeometry b (kblockWrite vt b d idx bs o).2.1 := by
  unfold kblockWrite
  split_ifs
  · have hl := kblockLoadPage_geometry vt b d idx
    generalize kblockLoadPage vt b d idx = r at hl ⊢
    obtain ⟨_ | _, b', d'⟩ := r <;> exact hl.trans ⟨rfl, rfl, rfl, rfl, rfl⟩
  · exact .refl b

theorem kblockCopy_geometry (src dest : ℕ) : SameGeometry b (kblockCopy vt b d src dest).2.1 := by
  unfold kblockCopy
  split_ifs
  · have hl := kblockLoadPage_geometry vt b d src
    generalize kblockLoadPage vt b d src = r at hl ⊢
    obtain ⟨_ | _, b', d'⟩ := r <;> exact hl.trans ⟨rfl, rfl, rfl, rfl, rfl⟩
  · exact .refl b
  · exact .refl b

theorem kblockLoadPage_currBlk {idx : ℕ} (h : (kblockLoadPage vt b d idx).1 = true) :
    (kblockLoadPage vt b d idx).2.1.currBlk = idx := by
  unfold kblockLoadPage at *
  split_ifs with hi
  · rw [if_pos hi] at h
    generalize kblockFlush vt b d = r at h ⊢
    obtain ⟨_ | _, b', d'⟩ := r
    · cases h
    · dsimp only at h ⊢
      generalize kblockLoad vt b' d' idx = r at h ⊢
      obtain ⟨_ | _, b'', d''⟩ := r
      · cases h
      · rfl
  · simp only [ne_eq, not_not] at hi
    exact hi.symm

end Bertos
