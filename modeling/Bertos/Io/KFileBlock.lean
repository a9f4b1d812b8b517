import Bertos.Io.KBlock

/-!
# Files over block devices (`bertos/io/kfile_block.c`)

A `KFileBlock` is a flat file over all the blocks of a device. Reading and writing cut the request at block boundaries
and stop at the last block or at the first short transfer. The loops recurse on `fuel`, the number of bytes asked for:
every turn moves at least one. If the blocks of the device are a memory, so is the file (`kfileblockReadLoop_flat`,
`kfileblockWriteLoop_flat`).
-/

namespace Bertos

open List

structure KFileBlock where
  blk : KBlock
  seekPos : ℕ
  size : ℕ

def kfileblockInit (blk : KBlock) : KFileBlock := ⟨blk, 0, blk.blkCnt * blk.blkSize⟩

/-- `kfile_seek(fd, pos, KSM_SEEK_SET)`. -/
def KFileBlock.seekSet (fb : KFileBlock) (pos : ℕ) : KFileBlock := { fb with seekPos := pos }

section Access

variable {σ : Type} (vt : KBlockVTable σ)

def kfileblockReadLoop : (fuel size : ℕ) → KFileBlock → σ → List UInt8 × KFileBlock × σ
  | 0, _, fb, d => ([], fb, d)
  | fuel + 1, size, fb, d =>
    if size = 0 then ([], fb, d)
    else
      let id := fb.seekPos / fb.blk.blkSize
      if fb.blk.blkCnt ≤ id then ([], fb, d)
      else
        let offset := fb.seekPos % fb.blk.blkSize
        let count := min size (fb.blk.blkSize - offset)
        match kblockRead vt fb.blk d id offset count with
        | ((bs, n), d') =>
          let fb' := { fb with seekPos := fb.seekPos + n }
          if n ≠ count then (bs.take n, fb', d')
          else
            match kfileblockReadLoop fuel (size - n) fb' d' with
            | (bs', fb'', d'') => (bs.take n ++ bs', fb'', d'')

/-- The bytes read; their number is the value returned. -/
def kfileblockRead (fb : KFileBlock) (d : σ) (size : ℕ) : List UInt8 × KFileBlock × σ :=
  kfileblockReadLoop vt size size fb d

def kfileblockWriteLoop : (fuel : ℕ) → List UInt8 → KFileBlock → σ → ℕ × KFileBlock × σ
  | 0, _, fb, d => (0, fb, d)
  | fuel + 1, bs, fb, d =>
    if bs.length = 0 then (0, fb, d)
    else
      let id := fb.seekPos / fb.blk.blkSize
      if fb.blk.blkCnt ≤ id then (0, fb, d)
      else
        let offset := fb.seekPos % fb.blk.blkSize
        let count := min bs.length (fb.blk.blkSize - offset)
        match kblockWrite vt fb.blk d id (bs.take count) offset with
        | (n, blk', d') =>
          let fb' := { fb with blk := blk', seekPos := fb.seekPos + n }
          if n ≠ count then (n, fb', d')
          else
            match kfileblockWriteLoop fuel (bs.drop n) fb' d' with
            | (n', fb'', d'') => (n + n', fb'', d'')

def kfileblockWrite (fb : KFileBlock) (d : σ) (bs : List UInt8) : ℕ × KFileBlock × σ :=
  kfileblockWriteLoop vt bs.length bs fb d

def kfileblockFlush (fb : KFileBlock) (d : σ) : Bool × KFileBlock × σ :=
  match kblockFlush vt fb.blk d with
  | (ok, blk', d') => (ok, { fb with blk := blk' }, d')

end Access

/-! ## The blocks one behind the other -/

section Flat

variable {σ : Type} {vt : KBlockVTable σ} (base : ℕ)

/-- The piece of a transfer at `pos` that lies in one block is the first piece of the transfer. -/
theorem piece_of_lt {blkSize cnt pos : ℕ} (size : ℕ) (h : pos / blkSize < cnt) (hs : 0 < blkSize) :
    min size (cnt * blkSize - pos) = min size (blkSize - pos % blkSize) +
      min (size - min size (blkSize - pos % blkSize)) (cnt * blkSize - (pos + min size (blkSize - pos % blkSize))) := by
  have hle : (pos / blkSize + 1) * blkSize ≤ cnt * blkSize := Nat.mul_le_mul_right blkSize h
  have hdiv := Nat.div_add_mod' pos blkSize
  have hmod := Nat.mod_lt pos hs
  rw [Nat.add_mul, Nat.one_mul] at hle
  omega

/-- The loop reads across the blocks as from one memory. -/
theorem kfileblockReadLoop_flat {blk : KBlock} {m : ℕ → UInt8} {I : σ → Prop} (hs : 0 < blk.blkSize)
    (hread : ∀ d id o n, I d → id < blk.blkCnt → o + n ≤ blk.blkSize → ∃ d',
      kblockRead vt blk d id o n = ((Mem.read m (base + (id * blk.blkSize + o)) n, n), d') ∧ I d')
    {fuel : ℕ} (size pos fsize : ℕ) {d : σ} (hfuel : size ≤ fuel) (hI : I d) :
    ∃ d', kfileblockReadLoop vt fuel size ⟨blk, pos, fsize⟩ d =
      (Mem.read m (base + pos) (min size (blk.blkCnt * blk.blkSize - pos)),
        ⟨blk, pos + min size (blk.blkCnt * blk.blkSize - pos), fsize⟩, d') ∧ I d' := by
  induction fuel generalizing size pos d with
  | zero =>
    obtain rfl : size = 0 := Nat.le_zero.mp hfuel
    exact ⟨d, by simp [kfileblockReadLoop], hI⟩
  | succ fuel ih =>
    by_cases hz : size = 0
    · exact ⟨d, by simp [kfileblockReadLoop, hz], hI⟩
    by_cases hend : blk.blkCnt ≤ pos / blk.blkSize
    · have hle := (Nat.le_div_iff_mul_le hs).mp hend
      exact ⟨d, by simp [kfileblockReadLoop, hz, hend, Nat.sub_eq_zero_of_le hle], hI⟩
    have hlt := Nat.not_le.mp hend
    have hmod := Nat.mod_lt pos hs
    obtain ⟨d1, hr, hI1⟩ := hread d (pos / blk.blkSize) (pos % blk.blkSize) (min size (blk.blkSize - pos % blk.blkSize))
      hI
      hlt (by omega)
    obtain ⟨d2, hloop, hI2⟩ := ih (size - min size (blk.blkSize - pos % blk.blkSize))
      (pos + min size (blk.blkSize - pos % blk.blkSize)) (by omega) hI1
    refine ⟨d2, ?_, hI2⟩
    rw [kfileblockReadLoop, if_neg hz]
    simp only [if_neg hend, hr, ne_eq, not_true_eq_false, if_false, hloop, Nat.div_add_mod']
    rw [take_of_length_le (by simp), ← Nat.add_assoc, ← Mem.read_add, piece_of_lt size hlt hs, Nat.add_assoc pos]

/-- The bytes `P` written so far grow by one piece at a time, to the end of the blocks. -/
theorem kfileblockWriteLoop_flat {blkSize cnt : ℕ} {I : ℕ → List UInt8 → KBlock → σ → Prop} (hs : 0 < blkSize)
    (hgeo : ∀ pos P blk d, I pos P blk d → blk.blkSize = blkSize ∧ blk.blkCnt = cnt)
    (hwrite : ∀ pos P blk d bs, I pos P blk d → bs ≠ [] → pos / blkSize < cnt → pos % blkSize + bs.length ≤ blkSize →
      ∃ blk' d', kblockWrite vt blk d (pos / blkSize) bs (pos % blkSize) = (bs.length, blk', d') ∧
        I (pos + bs.length) (P ++ bs) blk' d')
    {fuel : ℕ} (bs : List UInt8) (fsize : ℕ) {pos : ℕ} {P : List UInt8} {blk : KBlock} {d : σ}
      (hfuel : bs.length ≤ fuel)
    (hI : I pos P blk d) :
    ∃ n blk' d', kfileblockWriteLoop vt fuel bs ⟨blk, pos, fsize⟩ d = (n, ⟨blk', pos + n, fsize⟩, d') ∧
      n = min bs.length (cnt * blkSize - pos) ∧ I (pos + n) (P ++ bs.take n) blk' d' := by
  induction fuel generalizing bs pos P blk d with
  | zero =>
    obtain rfl : bs = [] := eq_nil_of_length_eq_zero (Nat.le_zero.mp hfuel)
    exact ⟨0, blk, d, rfl, by simp, by simpa using hI⟩
  | succ fuel ih =>
    obtain ⟨hbs, hcnt⟩ := hgeo pos P blk d hI
    by_cases hz : bs.length = 0
    · exact ⟨0, blk, d, by simp [kfileblockWriteLoop, hz], by simp [hz], by simpa using hI⟩
    by_cases hend : cnt ≤ pos / blkSize
    · have hle := (Nat.le_div_iff_mul_le hs).mp hend
      exact ⟨0, blk, d, by simp [kfileblockWriteLoop, hz, hbs, hcnt, hend], by omega, by simpa using hI⟩
    have hlt := Nat.not_le.mp hend
    have hmod := Nat.mod_lt pos hs
    have hpiece := piece_of_lt bs.length hlt hs
    generalize hc : min bs.length (blkSize - pos % blkSize) = c at hpiece
    have hlen : (bs.take c).length = c := by rw [length_take]; omega
    have hne : bs.take c ≠ [] := ne_nil_of_length_pos (by omega)
    obtain ⟨blk1, d1, hw, hI1⟩ := hwrite pos P blk d (bs.take c) hI hne hlt (by omega)
    rw [hlen] at hw hI1
    obtain ⟨n, blk2, d2, hloop, hn, hI2⟩ := ih (bs.drop c) (by rw [length_drop]; omega) hI1
    rw [length_drop] at hn
    refine ⟨c + n, blk2, d2, ?_, by omega, ?_⟩
    · rw [kfileblockWriteLoop, if_neg hz]
      simp only [hbs, hcnt, if_neg hend, hc, hw, ne_eq, not_true_eq_false, if_false, hloop, Nat.add_assoc]
    · rw [take_add, ← append_assoc, ← Nat.add_assoc]
      exact hI2

end Flat

end Bertos
