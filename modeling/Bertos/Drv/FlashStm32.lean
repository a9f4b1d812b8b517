import Bertos.Io.KBlock

/-!
# The embedded flash of the STM32F2 (`bertos/cpu/cortex-m3/drv/flash_stm32.c`)

The flash of an STM32F207IG: 1024 KB in twelve sectors of different sizes, seen by the driver as 1 KB blocks. Writing
a block that starts a sector erases the whole sector first; then the block is programmed half-word by half-word, which
can only clear bits. `FlashDev.log` records the erasures and programmings, newest first. Erasing and programming
always succeed.
-/

namespace Bertos

/-- `FLASH_PAGE_SIZE_BYTES`. -/
def flashPageSize : ℕ := 1024

/-- `F_SIZE`, in KB. -/
def fSize : ℕ := 1024

/-- The boundaries of the sectors in KB: start and end of each one. -/
def sectorBoundaries : List ℕ :=
  [0, 16, 16, 32, 32, 48, 48, 64, 64, 128, 128 * 1, 128 * 2, 128 * 2, 128 * 3, 128 * 3, 128 * 4, 128 * 4, 128 * 5,
    128 * 5, 128 * 6, 128 * 6, 128 * 7, 128 * 7, 128 * 8]

/-- The loop of `stm32_sectorIndex`: the position of the sector that starts at `pageKb`. -/
def sectorIndexFrom (pageKb : ℕ) : List ℕ → ℕ → Option ℕ
  | start :: _ :: rest, i => if pageKb = start then some i else sectorIndexFrom pageKb rest (i + 1)
  | _, _ => none

/-- The sector that starts at an address; `none` is the `-1` of the source. -/
def stm32SectorIndex (pageAdd : ℕ) : Option ℕ :=
  if pageAdd % 1024 ≠ 0 then none else sectorIndexFrom (pageAdd / 1024) sectorBoundaries 0

def sectorStart (s : ℕ) : ℕ := 1024 * sectorBoundaries.getD (2 * s) 0

/-- The address after the last one of a sector. -/
def sectorEnd (s : ℕ) : ℕ := 1024 * sectorBoundaries.getD (2 * s + 1) 0

/-- What is done to the flash: a sector is erased, the half-word at an address is programmed. -/
inductive FlashOp
  | erase (sector : ℕ)
  | program (addr : ℕ)
  deriving DecidableEq, Repr

structure FlashDev where
  mem : ℕ → UInt8
  log : List FlashOp

def stm32EraseSector (d : FlashDev) (s : ℕ) : FlashDev :=
  ⟨fun a => if sectorStart s ≤ a ∧ a < sectorEnd s then 0xFF else d.mem a, .erase s :: d.log⟩

/-- `stm32_writeWord` of the half-word with low byte `lo` and high byte `hi`. -/
def stm32WriteWord (d : FlashDev) (addr : ℕ) (lo hi : UInt8) : FlashDev :=
  ⟨Mem.write d.mem addr [d.mem addr &&& lo, d.mem (addr + 1) &&& hi], .program addr :: d.log⟩

/-- The programming loop of `stm32_flash_writeDirect`. -/
def stm32WriteWords : FlashDev → ℕ → List UInt8 → FlashDev
  | d, addr, lo :: hi :: rest => stm32WriteWords (stm32WriteWord d addr lo hi) (addr + 2) rest
  | d, _, _ => d

def stm32FlashReadDirect (d : FlashDev) (idx offset size : ℕ) : (List UInt8 × ℕ) × FlashDev :=
  ((Mem.read d.mem (idx * flashPageSize + offset) size, size), d)

/-- The erasure `stm32_flash_writeDirect` begins with, if the block starts a sector. -/
def stm32EraseAt (d : FlashDev) (addr : ℕ) : FlashDev :=
  match stm32SectorIndex addr with
  | some s => stm32EraseSector d s
  | none => d

def stm32FlashWriteDirect (d : FlashDev) (idx : ℕ) (bs : List UInt8) (_offset : ℕ) : ℕ × FlashDev :=
  let addr := idx * flashPageSize
  (flashPageSize, stm32WriteWords (stm32EraseAt d addr) addr bs)

/-- `flash_stm32_buffered_vt`. -/
def flashStm32Vt : KBlockVTable FlashDev := ⟨stm32FlashReadDirect, stm32FlashWriteDirect⟩

/-- `flash_hw_init`: the first block is in the cache. -/
def flashHwInit (d : FlashDev) : KBlock where
  buffered := true
  dirty := false
  partialWrite := true
  buf := d.mem
  blkStart := 0
  currBlk := 0
  blkSize := flashPageSize
  blkCnt := fSize * 1024 / flashPageSize

end Bertos
