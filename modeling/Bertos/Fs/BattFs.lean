import Mathlib.Logic.Function.Basic
import Bertos.Fs.Header
import Bertos.Io.KBlock

/-!
# BattFS (`bertos/fs/battfs.c`)

The disk state of the file system: the allocation map `page_array` (the blocks of the files, ordered by inode and page
offset, then the free blocks), the counters, and the open files. The block device is a `KBlock` over an arbitrary
driver; a file handle is named by a number, since every allocation moves the start of the files behind it.

`uint16_t`, `uint32_t` and `int32_t` variables are numbers; `u16`, `u32` and `i32` stand where the source stores a
value that may not fit. The `log` is not part of the source's state: it lists which blocks were taken from the free
area and which ones were modified, each with the state of the cache at that moment.
-/

namespace Bertos

/-! ## Machine integers -/

/-- Conversion to `uint16_t`. -/
def u16 (z : ℤ) : ℕ := (z % 65536).toNat

/-- Conversion to `uint32_t`. -/
def u32 (z : ℤ) : ℕ := (z % 4294967296).toNat

/-- Conversion to `int32_t`. -/
def i32 (z : ℤ) : ℤ := (z + 2147483648) % 4294967296 - 2147483648

theorem u16_of_lt {n : ℕ} (h : n < 65536) : u16 n = n := by
  unfold u16
  omega

theorem i32_of_lt {z : ℤ} (h₀ : -2147483648 ≤ z) (h : z < 2147483648) : i32 z = z := by
  unfold i32
  omega

/-! ## State -/

/-- `PAGE_UNSET_SENTINEL`, also `NO_SPACE`. -/
def pageUnsetSentinel : ℕ := 65535

inductive BattFsError
  | negativeSeek
  | diskRead
  | diskWrite
  | diskSpaceover
  | diskFlushbuf
  | fileNotFound
  deriving DecidableEq

/-- A file handle; `start` is the position of the file's first page in `page_array`. -/
structure BattFs where
  inode : ℕ
  start : ℕ
  maxOff : ℕ
  size : ℤ
  seekPos : ℤ
  errors : List BattFsError

inductive BlockOp
  /-- The block was taken from the free area. -/
  | taken (blk : ℕ)
  /-- The block was the target of a write or a copy; `hot`: it was the cached and dirty block. -/
  | modified (blk : ℕ) (hot : Bool)
  deriving DecidableEq

/-- A disk, with its device (`dev`, `raw`), the file handles and the list of the open ones. -/
structure BattFsSuper (σ : Type) where
  dev : KBlock
  raw : σ
  dataSize : ℕ
  pageArray : List ℕ
  freePageStart : ℕ
  diskSize : ℕ
  freeBytes : ℕ
  fds : ℕ → BattFs
  opened : List ℕ
  log : List BlockOp

variable {σ : Type}

namespace BattFsSuper

def page (w : BattFsSuper σ) (pos : ℕ) : ℕ :=
  w.pageArray.getD pos pageUnsetSentinel

def setPage (w : BattFsSuper σ) (pos page : ℕ) : BattFsSuper σ :=
  { w with pageArray := w.pageArray.set pos page }

/-- The handle `h` replaced. -/
def setFd (w : BattFsSuper σ) (h : ℕ) (fd : BattFs) : BattFsSuper σ :=
  { w with fds := fun i => if i = h then fd else w.fds i }

/-- An error flag of the handle `h` set. -/
def setError (w : BattFsSuper σ) (h : ℕ) (e : BattFsError) : BattFsSuper σ :=
  w.setFd h { w.fds h with errors := e :: (w.fds h).errors }

/-- The block is the cached one and has not been written back. -/
def cachedDirty (w : BattFsSuper σ) (blk : ℕ) : Bool :=
  w.dev.buffered && (blk == w.dev.currBlk && kblockCacheDirty w.dev)

end BattFsSuper

/-! ## Access to the device -/

section
variable (vt : KBlockVTable σ)

/-- `kblock_write` on the disk's device. -/
def blockWrite (w : BattFsSuper σ) (page : ℕ) (bs : List UInt8) (offset : ℕ) : ℕ × BattFsSuper σ :=
  match kblockWrite vt w.dev w.raw page bs offset with
  | (n, dev, raw) => (n, { w with dev := dev, raw := raw, log := w.log ++ [.modified page (w.cachedDirty page)] })

/-- `kblock_copy` on the disk's device. -/
def blockCopy (w : BattFsSuper σ) (src dest : ℕ) : Bool × BattFsSuper σ :=
  match kblockCopy vt w.dev w.raw src dest with
  | (ok, dev, raw) => (ok, { w with dev := dev, raw := raw, log := w.log ++ [.modified dest (w.cachedDirty dest)] })

/-- Read header of `page`; `none` on a read error. -/
def readHdr (w : BattFsSuper σ) (page : ℕ) : Option BattFsPageHeader × BattFsSuper σ :=
  match kblockRead vt w.dev w.raw page w.dataSize battfsHeaderLen with
  | ((bs, n), raw) => (if n = battfsHeaderLen then some (diskToBattfs bs) else none, { w with raw := raw })

/-- Write the header of `page`, with its checksum. -/
def writeHdr (w : BattFsSuper σ) (page : ℕ) (hdr : BattFsPageHeader) : Bool × BattFsSuper σ :=
  match blockWrite vt w page (battfsToDisk hdr.sealed) w.dataSize with
  | (n, w') => (n == battfsHeaderLen, w')

@[simp] theorem blockWrite_fds (w : BattFsSuper σ) (page : ℕ) (bs : List UInt8) (offset : ℕ) :
    (blockWrite vt w page bs offset).2.fds = w.fds := rfl

@[simp] theorem readHdr_fds (w : BattFsSuper σ) (page : ℕ) : (readHdr vt w page).2.fds = w.fds := rfl

@[simp] theorem writeHdr_fds (w : BattFsSuper σ) (page : ℕ) (hdr : BattFsPageHeader) :
    (writeHdr vt w page hdr).2.fds = w.fds := rfl

/-! ## The allocation map -/

/-- `movePages` by one position to the left, the only offset in use: the entries from `src` on move down, and the last
entry becomes the sentinel. -/
def movePages (w : BattFsSuper σ) (src : ℕ) : BattFsSuper σ :=
  { w with pageArray := w.pageArray.eraseIdx (src - 1) ++ [pageUnsetSentinel] }

/-- The macro `SPACE_OVER`. -/
def spaceOver (w : BattFsSuper σ) : Bool := w.dev.blkCnt ≤ w.freePageStart

/-- The first free page goes to position `newPos` of the map; the open files with greater inodes move. -/
def allocateNewPage (w : BattFsSuper σ) (newPos inode : ℕ) : Option (ℕ × BattFsSuper σ) :=
  if spaceOver w then none
  else
    let newPage := w.page w.freePageStart
    some (newPage,
      { w with
        freePageStart := w.freePageStart + 1
        -- the entries from `newPos` up to the free area move up by one
        pageArray := (w.pageArray.eraseIdx w.freePageStart).insertIdx newPos newPage
        fds := fun h =>
          if h ∈ w.opened ∧ inode < (w.fds h).inode then { w.fds h with start := (w.fds h).start + 1 } else w.fds h
        log := w.log ++ [.taken newPage] })

/-- The first free page is taken, and `oldPage` becomes the last free one. -/
def renewPage (w : BattFsSuper σ) (oldPage : ℕ) : Option (ℕ × BattFsSuper σ) :=
  if spaceOver w then none
  else
    let newPage := w.page w.freePageStart
    let w' := (movePages w (w.freePageStart + 1)).setPage (w.dev.blkCnt - 1) oldPage
    some (newPage, { w' with log := w'.log ++ [.taken newPage] })

/-! ## Writing -/

/-- Fill the rest of a page with zeros, `n` bytes from `hdr.fill` on. -/
def padPage (page : ℕ) : (n : ℕ) → BattFsSuper σ → (h : ℕ) → BattFsPageHeader →
    Option BattFsPageHeader × BattFsSuper σ
  | 0, w, _, hdr => (some hdr, w)
  | n + 1, w, h, hdr =>
    match blockWrite vt w page [0] hdr.fill with
    | (cnt, w') =>
      if cnt ≠ 1 then (none, w'.setError h .diskWrite)
      else
        padPage page n
          ({ w' with freeBytes := u32 (w'.freeBytes - 1) }.setFd h { w'.fds h with size := i32 ((w'.fds h).size + 1) })
          h { hdr with fill := u16 (hdr.fill + 1) }

theorem padPage_seekPos (page n : ℕ) (w : BattFsSuper σ) (h : ℕ) (hdr : BattFsPageHeader) :
    ((padPage vt page n w h hdr).2.fds h).seekPos = (w.fds h).seekPos := by
  induction n generalizing w hdr with
  | zero => rfl
  | succ n ih =>
    unfold padPage
    generalize hb : blockWrite vt w page [0] hdr.fill = r
    have hw := congrArg (fun x => x.2.fds) hb
    obtain ⟨cnt, w'⟩ := r
    dsimp only at hw ⊢
    rw [← blockWrite_fds vt w page [0] hdr.fill, hw]
    split_ifs
    · simp [BattFsSuper.setError, BattFsSuper.setFd]
    · rw [ih]
      simp [BattFsSuper.setFd]

/-- Write zeros to a new page, `n` bytes up to the end of its data. -/
def zeroPage (page : ℕ) : (n : ℕ) → BattFsSuper σ → Bool × BattFsSuper σ
  | 0, w => (true, w)
  | n + 1, w =>
    match blockWrite vt w page [0] (w.dataSize - (n + 1)) with
    | (cnt, w') => if cnt ≠ 1 then (false, w') else zeroPage page n w'

/-- What every write to the page keeps, filling it with zeros keeps. -/
theorem zeroPage_rule {R : BattFsSuper σ → BattFsSuper σ → Prop} {page : ℕ} (hrefl : ∀ w, R w w)
    (htrans : ∀ {w w' w''}, R w w' → R w' w'' → R w w'') (hw : ∀ w o, R w (blockWrite vt w page [0] o).2) (n : ℕ)
    (w : BattFsSuper σ) : R w (zeroPage vt page n w).2 := by
  induction n generalizing w with
  | zero => exact hrefl w
  | succ n ih =>
    have hw' := hw w (w.dataSize - (n + 1))
    unfold zeroPage
    generalize blockWrite vt w page [0] (w.dataSize - (n + 1)) = r at hw' ⊢
    dsimp only
    split_ifs
    · exact hw'
    · exact htrans hw' (ih _)

theorem zeroPage_fds (page n : ℕ) (w : BattFsSuper σ) : (zeroPage vt page n w).2.fds = w.fds :=
  zeroPage_rule vt (R := fun w w' => w'.fds = w.fds) (fun _ => rfl) (fun h h' => h'.trans h) (fun _ _ => rfl) n w

/-- Allocate one missing page behind the last one, filled with zeros. -/
def allocZeroPage (w : BattFsSuper σ) (h : ℕ) : Bool × BattFsSuper σ :=
  let fd := w.fds h
  let zeroBytes := u16 (min (w.dataSize : ℤ) (fd.seekPos - fd.size))
  match allocateNewPage w (fd.start + fd.maxOff + 1) fd.inode with
  | none => (false, w.setError h .diskSpaceover)
  | some (newPage, w) =>
    match zeroPage vt newPage w.dataSize w with
    | (false, w) => (false, w.setError h .diskWrite)
    | (true, w) =>
      let maxOff := u16 ((w.fds h).maxOff + 1)
      let w := w.setFd h { w.fds h with maxOff := maxOff }
      match writeHdr vt w newPage { inode := fd.inode, fill := zeroBytes, pgoff := maxOff, seq := 0, fcs := 0 } with
      | (false, w) => (false, w.setError h .diskWrite)
      | (true, w) =>
        (true, { w with freeBytes := u32 (w.freeBytes - zeroBytes) }.setFd h
          { w.fds h with size := i32 ((w.fds h).size + zeroBytes) })

/-- Allocate the missing pages between the end of a file and the position to write at. -/
def allocMissing : (missing : ℕ) → BattFsSuper σ → (h : ℕ) → Bool × BattFsSuper σ
  | 0, w, _ => (true, w)
  | missing + 1, w, h =>
    match allocZeroPage vt w h with
    | (false, w) => (false, w)
    | (true, w) => allocMissing missing w h

/-- The page at `pos` of the map is moved to a free block, unless the block at `pos'` is the cached and dirty one. The
result of the copy is handed on. -/
def relocate (w : BattFsSuper σ) (pos pos' : ℕ) : Option (ℕ × Bool × BattFsSuper σ) :=
  if w.dev.buffered && (w.page pos' ≠ w.dev.currBlk || !kblockCacheDirty w.dev) then
    match renewPage w (w.page pos) with
    | none => none
    | some (newPage, w') =>
      match blockCopy vt w' (w'.page pos) newPage with
      | (ok, w'') => some (newPage, ok, w'')
  else some (w.page pos, true, w)

/-- The part of `battfs_write` for a position beyond the end of the file. -/
def fillGap (w : BattFsSuper σ) (h : ℕ) : Bool × BattFsSuper σ :=
  let fd := w.fds h
  let pos := fd.start + fd.maxOff
  match readHdr vt w (w.page pos) with
  | (none, w) => (false, w.setError h .diskRead)
  | (some hdr, w) =>
    match relocate vt w pos pos with
    | none => (false, w.setError h .diskSpaceover)
    | some (newPage, _, w) =>
      -- the result of the copy is not looked at here
      let w := w.setPage pos newPage
      match padPage vt newPage (u16 (min (fd.seekPos - fd.size) ((w.dataSize : ℤ) - hdr.fill))) w h hdr with
      | (none, w) => (false, w)
      | (some hdr, w) =>
        match writeHdr vt w newPage { hdr with seq := hdr.seq + 1 } with
        | (false, w) => (false, w.setError h .diskWrite)
        | (true, w) => allocMissing vt (u16 (fd.seekPos.tdiv w.dataSize - fd.maxOff)) w h

/-- The page to write to and its header: a new page behind the end of the file, or the relocated old one. -/
def selectPage (w : BattFsSuper σ) (h pgOffset : ℕ) : Option (ℕ × BattFsPageHeader) × BattFsSuper σ :=
  let fd := w.fds h
  if fd.maxOff < pgOffset then
    match allocateNewPage w (fd.start + pgOffset) fd.inode with
    | none => (none, w.setError h .diskSpaceover)
    | some (newPage, w) =>
      (some (newPage, { inode := fd.inode, fill := 0, pgoff := pgOffset, seq := 0, fcs := 0 }),
        w.setFd h { w.fds h with maxOff := pgOffset })
  else
    match readHdr vt w (w.page (fd.start + pgOffset)) with
    | (none, w) => (none, w.setError h .diskRead)
    | (some hdr, w) =>
      match relocate vt w (fd.start + pgOffset) (fd.start + fd.maxOff) with
      | none => (none, w.setError h .diskSpaceover)
      | some (_, false, w) => (none, w.setError h .diskWrite)
      | some (newPage, true, w) =>
        (some (newPage, { hdr with seq := hdr.seq + 1 }), w.setPage (fd.start + pgOffset) newPage)

/-- The second half of a turn of the loop of `battfs_write`: the piece `bs` of the data is written to the selected page,
and its header after it. -/
def storePiece (w : BattFsSuper σ) (h newPage : ℕ) (hdr : BattFsPageHeader) (addrOffset : ℕ) (bs : List UInt8) :
    Bool × ℕ × BattFsSuper σ :=
  match blockWrite vt w newPage bs addrOffset with
  | (cnt, w) =>
    if cnt ≠ bs.length then (false, 0, w.setError h .diskWrite)
    else
      let fillDelta := u16 (max ((addrOffset : ℤ) + bs.length - hdr.fill) 0)
      let fd := w.fds h
      let w := { w with freeBytes := u32 (w.freeBytes - fillDelta) }.setFd h
        { fd with seekPos := i32 (fd.seekPos + bs.length), size := i32 (fd.size + fillDelta) }
      match writeHdr vt w newPage { hdr with fill := u16 (hdr.fill + fillDelta) } with
      | (false, w) => (false, bs.length, w.setError h .diskWrite)
      | (true, w) => (true, bs.length, w)

/-- One turn of the loop of `battfs_write`, within one page: whether the loop goes on, and the bytes written. -/
def writeTurn (w : BattFsSuper σ) (h : ℕ) (buf : List UInt8) : Bool × ℕ × BattFsSuper σ :=
  let seekPos := (w.fds h).seekPos
  let addrOffset := u16 (seekPos.tmod w.dataSize)
  let wrLen := u16 (min buf.length (u32 ((w.dataSize : ℤ) - addrOffset)) : ℕ)
  match selectPage vt w h (u16 (seekPos.tdiv w.dataSize)) with
  | (none, w) => (false, 0, w)
  | (some (newPage, hdr), w) => storePiece vt w h newPage hdr addrOffset (buf.take wrLen)

/-- The loop of `battfs_write`; `total` bytes are already written. A turn whose offset in the page is in range writes at
least one byte, so the loop ends after as many turns as there are bytes. -/
def writeLoop : (fuel : ℕ) → BattFsSuper σ → (h : ℕ) → (buf : List UInt8) → (total : ℕ) → ℕ × BattFsSuper σ
  | 0, w, _, _, total => (total, w)
  | fuel + 1, w, h, buf, total =>
    if buf = [] then (total, w)
    else
      match writeTurn vt w h buf with
      | (false, n, w) => (total + n, w)
      | (true, n, w) => writeLoop fuel w h (buf.drop n) (total + n)

/-- `battfs_write`: the number of bytes written. -/
def battfsWrite (w : BattFsSuper σ) (h : ℕ) (buf : List UInt8) : ℕ × BattFsSuper σ :=
  let fd := w.fds h
  if fd.seekPos < 0 then (0, w.setError h .negativeSeek)
  else if fd.size < fd.seekPos then
    match fillGap vt w h with
    | (false, w) => (0, w)
    | (true, w) => writeLoop vt buf.length w h buf 0
  else writeLoop vt buf.length w h buf 0

/-! ## Reading -/

/-! ## Opening and closing -/

/-- The binary search of `findFile` between `first` and `last`. -/
def findFileLoop (inode : ℕ) : (fuel : ℕ) → BattFsSuper σ → (first last : ℕ) → (Bool × ℕ) × BattFsSuper σ
  | 0, w, _, last => ((false, last), w)
  | fuel + 1, w, first, last =>
    if first < last then
      let page := (first + last) / 2
      match readHdr vt w (w.page page) with
      | (none, w) => ((false, last), w)
      | (some hdr, w) =>
        if HdrValid hdr ∧ hdr.inode = inode then ((true, u16 ((page : ℤ) - hdr.pgoff)), w)
        else if HdrValid hdr ∧ hdr.inode < inode then findFileLoop inode fuel w (page + 1) last
        else findFileLoop inode fuel w first page
    else ((false, last), w)

/-- Search file `inode`: whether it was found, and where it starts in the map or is to be inserted. -/
def findFile (w : BattFsSuper σ) (inode : ℕ) : (Bool × ℕ) × BattFsSuper σ :=
  findFileLoop vt inode w.freePageStart w 0 w.freePageStart

/-- The loop of `countFileSize` over the `n` entries of the map from `pos` on; `none` on a read error. -/
def countFileSize (inode : ℕ) : (n pos : ℕ) → BattFsSuper σ → ℤ → Option ℤ × BattFsSuper σ
  | 0, _, w, size => (some size, w)
  | n + 1, pos, w, size =>
    match readHdr vt w (w.page pos) with
    | (none, w) => (none, w)
    | (some hdr, w) =>
      if HdrValid hdr ∧ hdr.inode = inode then countFileSize inode n (pos + 1) w (i32 (size + hdr.fill))
      else (some size, w)

/-- A handle put into the list of open files, before the first one of the same or a greater inode. -/
def insertOpened (w : BattFsSuper σ) (h inode : ℕ) : List ℕ :=
  w.opened.takeWhile (fun g => (w.fds g).inode < inode) ++ h :: w.opened.dropWhile (fun g => (w.fds g).inode < inode)

/-- The rest of `battfs_fileopen`, once the file is at `startPos`. -/
def openAt (w : BattFsSuper σ) (h inode startPos : ℕ) : Bool × BattFsSuper σ :=
  match countFileSize vt inode (w.freePageStart - startPos) startPos w 0 with
  | (none, w) => (false, w.setFd h { w.fds h with start := startPos, size := -1, errors := [.diskRead] })
  -- `EOF` is -1: a sum of that value is taken for a read error as well
  | (some size, w) =>
    if size = -1 then (false, w.setFd h { w.fds h with start := startPos, size := -1, errors := [.diskRead] })
    else
      let w' := { w with opened := insertOpened w h inode }
      (true, w'.setFd h
        { inode := inode, start := startPos, maxOff := u16 (size.tdiv w.dataSize), size := size, seekPos := 0,
          errors := [] })

/-- `battfs_fileopen`; `create` is the bit `BATTFS_CREATE` of the mode. -/
def battfsFileopen (w : BattFsSuper σ) (h inode : ℕ) (create : Bool) : Bool × BattFsSuper σ :=
  let w := w.setFd h { inode := 0, start := 0, maxOff := 0, size := 0, seekPos := 0, errors := [] }
  match findFile vt w inode with
  | ((true, startPos), w) => openAt vt w h inode startPos
  | ((false, startPos), w) =>
    if !create then (false, w.setError h .fileNotFound)
    else
      match allocateNewPage w startPos inode with
      | none => (false, w.setError h .diskSpaceover)
      | some (_, w) =>
        match writeHdr vt w (w.page startPos) { inode := inode, fill := 0, pgoff := 0, seq := 0, fcs := 0 } with
        | (false, w) => (false, w.setError h .diskWrite)
        | (true, w) => openAt vt w h inode startPos

/-! ## Mounting -/

/-- How `battfs_mount` can fail: with `false`, or at an assertion. -/
inductive MountError
  | diskRead
  | assertion
  deriving DecidableEq

/-- `countPages`: the pages of the inodes below `inode`. -/
def countPages (filelen : ℕ → ℕ) : (inode : ℕ) → ℕ
  | 0 => 0
  | inode + 1 => u16 (countPages filelen inode + filelen inode)

/-- The loop of `countDiskFilePages` over the `n` blocks from `page` on. -/
def countDiskFilePages : (n page : ℕ) → BattFsSuper σ → (filelen : ℕ → ℕ) →
    Except MountError (BattFsSuper σ × (ℕ → ℕ))
  | 0, _, w, filelen => .ok (w, filelen)
  | n + 1, page, w, filelen =>
    match readHdr vt w page with
    | (none, _) => .error .diskRead
    | (some hdr, w) =>
      let w := { w with freeBytes := u32 (w.freeBytes + w.dataSize) }
      if HdrValid hdr then
        if hdr.fill ≤ w.dataSize then
          countDiskFilePages n (page + 1)
            { w with freeBytes := u32 (w.freeBytes - hdr.fill), freePageStart := u16 (w.freePageStart + 1) }
            (Function.update filelen hdr.inode (u16 (filelen hdr.inode + 1)))
        else .error .assertion
      else countDiskFilePages n (page + 1) w filelen

/-- What `fillPageArray` does with a block whose place in the map is taken by another version of the same page. -/
def fillDuplicate (w : BattFsSuper σ) (filelen : ℕ → ℕ) (currFree page arrayPos : ℕ) (hdr prv : BattFsPageHeader) :
    Except MountError (BattFsSuper σ × (ℕ → ℕ) × ℕ) :=
  if HdrValid prv ∧ hdr.inode = prv.inode ∧ hdr.pgoff = prv.pgoff ∧ hdr.seq ≠ prv.seq then
    let newer := prv.seq < hdr.seq
    let oldPage := if newer then w.page arrayPos else page
    let newPage := if newer then page else w.page arrayPos
    let oldFill := if newer then prv.fill else hdr.fill
    let w := { w.setPage arrayPos newPage with freeBytes := u32 (w.freeBytes + oldFill) }
    -- the map behind the pages of this inode moves to the left, over the place that the duplicate was counted for
    let w := movePages w (u16 ((arrayPos : ℤ) - hdr.pgoff + filelen hdr.inode))
    let filelen := Function.update filelen hdr.inode (u16 ((filelen hdr.inode : ℤ) - 1))
    let w := { w with freePageStart := u16 ((w.freePageStart : ℤ) - 1) }
    let currFree := u16 ((currFree : ℤ) - 1)
    if w.page currFree = pageUnsetSentinel then .ok (w.setPage currFree oldPage, filelen, u16 (currFree + 1))
    else .error .assertion
  else .error .assertion

/-- The loop of `fillPageArray` over the `n` blocks from `page` on; `currFree` is `curr_free_page`. -/
def fillPageArray : (n page : ℕ) → BattFsSuper σ → (filelen : ℕ → ℕ) → (currFree : ℕ) →
    Except MountError (BattFsSuper σ)
  | 0, _, w, _, _ => .ok w
  | n + 1, page, w, filelen, currFree =>
    match readHdr vt w page with
    | (none, _) => .error .diskRead
    | (some hdr, w) =>
      if HdrValid hdr then
        let arrayPos := u16 (countPages filelen hdr.inode + hdr.pgoff)
        if w.page arrayPos = pageUnsetSentinel then
          fillPageArray n (page + 1) (w.setPage arrayPos page) filelen currFree
        else
          match readHdr vt w (w.page arrayPos) with
          | (none, _) => .error .diskRead
          | (some prv, w) =>
            match fillDuplicate w filelen currFree page arrayPos hdr prv with
            | .error e => .error e
            | .ok (w, filelen, currFree) => fillPageArray n (page + 1) w filelen currFree
      else if w.page currFree = pageUnsetSentinel then
        fillPageArray n (page + 1) (w.setPage currFree page) filelen (u16 (currFree + 1))
      else .error .assertion

/-- `battfs_mount` of the device `dev`, with its assertions on the geometry; `pageArray` is as long as the device has
blocks. -/
def battfsMount (dev : KBlock) (raw : σ) (fds : ℕ → BattFs) : Except MountError (BattFsSuper σ) :=
  if dev.partialWrite ∧ battfsHeaderLen < dev.blkSize ∧ 0 < dev.blkCnt ∧ dev.blkCnt < pageUnsetSentinel - 1 then
    let dataSize := u16 ((dev.blkSize : ℤ) - battfsHeaderLen)
    let w : BattFsSuper σ :=
      { dev := dev, raw := raw, dataSize := dataSize, pageArray := [], freePageStart := 0,
        diskSize := u32 (dataSize * dev.blkCnt), freeBytes := 0, fds := fds, opened := [], log := [] }
    match countDiskFilePages vt dev.blkCnt 0 w (fun _ => 0) with
    | .error e => .error e
    | .ok (w, filelen) =>
      fillPageArray vt dev.blkCnt 0 { w with pageArray := List.replicate dev.blkCnt pageUnsetSentinel } filelen
        w.freePageStart
  else .error .assertion

/-- **A torn header is detected**: what is found is the old header, or the new one, or its checksum is wrong and the
scan of the mount keeps the page as free. That is so unless the cut leaves bytes of both and the differences up to it
cancel in the checksum. -/
theorem tornHeader_detected_iff {old new : List UInt8} (ho : old.length = battfsHeaderLen)
    (hn : new.length = battfsHeaderLen) (hold : HdrValid (diskToBattfs old)) (hnew : HdrValid (diskToBattfs new))
    (cut : ℕ) :
    (tornHeader old new cut = old ∨ tornHeader old new cut = new ∨
      ¬ HdrValid (diskToBattfs (tornHeader old new cut)) ∧
        ∀ (w w' : BattFsSuper σ) (page n currFree : ℕ) (filelen : ℕ → ℕ),
          readHdr vt w page = (some (diskToBattfs (tornHeader old new cut)), w') →
          w'.page currFree = pageUnsetSentinel → fillPageArray vt (n + 1) page w filelen currFree =
            fillPageArray vt n (page + 1) (w'.setPage currFree page) filelen (u16 (currFree + 1))) ↔
      (cut ≤ 10 → Cancels ((new.take cut).zipWith (· ^^^ ·) (old.take cut)) →
        new.take cut = old.take cut ∨ new.drop cut = old.drop cut) := by
  have hlen : (new.take cut).length = (old.take cut).length := by rw [List.length_take, List.length_take, ho, hn]
  have hvalid (hcut : cut ≤ 10) : HdrValid (diskToBattfs (tornHeader old new cut)) ↔
      Cancels ((new.take cut).zipWith (· ^^^ ·) (old.take cut)) :=
    (hdrValid_torn_iff ho hn hold hcut).trans (rotatingUpdate_eq_iff hlen)
  constructor
  · rintro (h | h | ⟨h, -⟩) hcut hcancels
    · exact Or.inl (List.append_inj (h.trans (List.take_append_drop cut old).symm) hlen).1
    · exact Or.inr (List.append_cancel_left (h.trans (List.take_append_drop cut new).symm)).symm
    · exact absurd ((hvalid hcut).mpr hcancels) h
  · intro h
    by_cases htorn : HdrValid (diskToBattfs (tornHeader old new cut))
    · rcases Nat.le_total cut 10 with hcut | hcut
      · rcases h hcut ((hvalid hcut).mp htorn) with h | h
        · exact Or.inl (by rw [tornHeader, h, List.take_append_drop])
        · exact Or.inr (Or.inl (by rw [tornHeader, ← h, List.take_append_drop]))
      · exact Or.inr (Or.inl (eq_new_of_torn ho hn hnew htorn hcut))
    · refine Or.inr (Or.inr ⟨htorn, fun w w' page n currFree filelen hread hfree => ?_⟩)
      rw [fillPageArray, hread]
      dsimp only
      rw [if_neg htorn, if_pos hfree]

end

/-- A cut after three bytes, on a driver that reads nothing. -/
theorem tornHeader_detected_iff_three : HdrValid (diskToBattfs [1, 0, 0, 0, 1, 1, 0, 0, 0, 0, 1, 0]) ∧
    ¬ HdrValid (diskToBattfs (tornHeader (List.replicate 12 0) [1, 0, 0, 0, 1, 1, 0, 0, 0, 0, 1, 0] 3)) := by
  have vt : KBlockVTable Unit := ⟨fun d _ _ _ => (([], 0), d), fun d _ _ _ => (0, d)⟩
  refine ⟨by decide, ?_⟩
  have h := (tornHeader_detected_iff vt (show (List.replicate 12 (0 : UInt8)).length = battfsHeaderLen from rfl)
    (show [1, 0, 0, 0, 1, 1, 0, 0, 0, 0, 1, 0].length = battfsHeaderLen from rfl) (by decide) (by decide) 3).mpr
      (by decide)
  exact ((h.resolve_left (by decide)).resolve_left (by decide)).1

/-- The bytes that differ are four apart and cancel in the hash: cut after five bytes, an empty page of inode 0 becomes
page 256 of inode 1, with a right checksum. -/
theorem tornHeader_cancels : HdrValid (diskToBattfs (List.replicate 12 0)) ∧
    HdrValid (diskToBattfs [1, 0, 0, 0, 1, 1, 0, 0, 0, 0, 1, 0]) ∧
    (let torn := tornHeader (List.replicate 12 0) [1, 0, 0, 0, 1, 1, 0, 0, 0, 0, 1, 0] 5
     HdrValid (diskToBattfs torn) ∧ torn ≠ List.replicate 12 0 ∧ torn ≠ [1, 0, 0, 0, 1, 1, 0, 0, 0, 0, 1, 0] ∧
       (diskToBattfs torn).inode = 1 ∧ (diskToBattfs torn).pgoff = 256) := by
  decide

end Bertos
