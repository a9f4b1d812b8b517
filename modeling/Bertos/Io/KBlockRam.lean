import Bertos.Io.KBlock

/-!
# Block devices in memory (`bertos/io/kblock_ram.c`)

A device whose blocks lie one behind the other in a memory. With buffering the source uses the first block of the memory
it is given as the page buffer; here the buffer is part of the descriptor and the memory is `membuf`, the blocks alone.
-/

namespace Bertos

/-- The direct accesses, `kblockram_readDirect` and `kblockram_writeDirect`. -/
def kblockramVt (blkSize : ℕ) : KBlockVTable (ℕ → UInt8) where
  readDirect membuf idx offset size := ((Mem.read membuf (idx * blkSize + offset) size, size), membuf)
  writeDirect membuf idx bs offset := (bs.length, Mem.write membuf (idx * blkSize + offset) bs)

/-- `kblockram_init` on `size` bytes of memory, with software buffering if `buffered`. -/
def kblockramInit (membuf : ℕ → UInt8) (size blkSize : ℕ) (buffered : Bool) : KBlock where
  buffered := buffered
  dirty := false
  partialWrite := true
  buf := if buffered then Mem.write (fun _ => 0) 0 (Mem.read membuf 0 blkSize) else fun _ => 0
  blkStart := 0
  currBlk := 0
  blkSize := blkSize
  blkCnt := if buffered then size / blkSize - 1 else size / blkSize

end Bertos
