import Bertos.Algo.Crc16
import Bertos.Drv.Eeprom
import Bertos.Lib.Bytes
import Bertos.Mware.IniReader

/-!
# The device life information (`common/dli.c`)

The EEPROM holds a boot area, an allocation table of two entries and two ini files. The entry with the later counter
says which file is current. `dli_set` writes the other file and then the entry that belongs to it. C leaves open in
which order the arguments of its `ini_setString(currIni(), nextIni(), …)` are evaluated, so the order is a parameter
(`ArgOrder`). An index of a file beyond the second fails an assertion: the functions then return `none`.
-/

namespace Bertos

/-! ## The state -/

/-- The four areas of the EEPROM that `dli_init` cuts out. -/
inductive DliFile
  | boot
  | fat
  | ini0
  | ini1
  deriving DecidableEq, Repr

def bootSize : ℕ := 1024
def fatSize : ℕ := 1024
def iniSize : ℕ := 4096

/-- The first page of an area and its number of pages. -/
def DliFile.start : DliFile → ℕ
  | .boot => 0
  | .fat => bootSize / eepromBlkSize
  | .ini0 => bootSize / eepromBlkSize + fatSize / eepromBlkSize
  | .ini1 => bootSize / eepromBlkSize + fatSize / eepromBlkSize + iniSize / eepromBlkSize

def DliFile.count : DliFile → ℕ
  | .boot => bootSize / eepromBlkSize
  | .fat => fatSize / eepromBlkSize
  | .ini0 => iniSize / eepromBlkSize
  | .ini1 => iniSize / eepromBlkSize

structure FatEntry where
  tag : UInt16
  version : UInt16
  counter : UInt32
  lastFile : UInt16
  crc : UInt16
  deriving DecidableEq

/-- The EEPROM, the positions in the files over it, and `last_entry`. -/
structure Dli where
  eep : Eeprom
  pos : DliFile → ℕ
  lastEntry : FatEntry

def Dli.setPos (w : Dli) (f : DliFile) (p : ℕ) : Dli := { w with pos := fun g => if g = f then p else w.pos g }

section Files

variable (line : ℕ → WriteOutcome)

/-- The `KFileBlock` over an area. -/
def Dli.fileBlock (w : Dli) (f : DliFile) : KFileBlock :=
  { kfileblockInit (eepromArea f.start f.count) with seekPos := w.pos f }

def dliFile (f : DliFile) : KFile Dli where
  read w n :=
    match kfileblockRead (eepromVt line) (w.fileBlock f) w.eep n with
    | (bs, fb, d) => (bs, { w.setPos f fb.seekPos with eep := d })
  write w bs :=
    match kfileblockWrite (eepromVt line) (w.fileBlock f) w.eep bs with
    | (n, fb, d) => (n, { w.setPos f fb.seekPos with eep := d })
  seekPos w := w.pos f
  seek w p := w.setPos f p
  size _ := f.count * eepromBlkSize

end Files

/-! ## The allocation table -/

def FatEntry.body (e : FatEntry) : List UInt8 :=
  leBytesOf 2 e.tag.toNat ++ leBytesOf 2 e.version.toNat ++ leBytesOf 4 e.counter.toNat ++ leBytesOf 2 e.lastFile.toNat

/-- An entry in memory; the structure is packed. -/
def FatEntry.bytes (e : FatEntry) : List UInt8 := e.body ++ leBytesOf 2 e.crc.toNat

def FatEntry.ofBytes (bs : List UInt8) : FatEntry where
  tag := UInt16.ofNat (leNat (bs.take 2))
  version := UInt16.ofNat (leNat ((bs.drop 2).take 2))
  counter := UInt32.ofNat (leNat ((bs.drop 4).take 4))
  lastFile := UInt16.ofNat (leNat ((bs.drop 8).take 2))
  crc := UInt16.ofNat (leNat ((bs.drop 10).take 2))

/-- `sizeof(FatEntry)`. -/
def fatEntrySize : ℕ := 12

def fatTag : UInt16 := 0x0FA7
def fatVersion : UInt16 := 0

section Fat

variable (line : ℕ → WriteOutcome)

/-- The checks of `fat_read`. -/
def fatCheck (bs : List UInt8) : Option FatEntry :=
  let entry := FatEntry.ofBytes bs
  if entry.tag ≠ fatTag then none
  else if entry.version ≠ fatVersion then none
  else if crc16 crc16InitVal (bs.take 10) = entry.crc then some entry
  else none

/-- `none` for `false`. -/
def fatRead (addr : ℕ) (w : Dli) : Option FatEntry × Dli :=
  match (dliFile line .fat).read ((dliFile line .fat).seek w (addr * fatEntrySize)) fatEntrySize with
  | (bs, w') => (if bs.length ≠ fatEntrySize then none else fatCheck bs, w')

def FatEntry.sealed (e : FatEntry) : FatEntry :=
  let e := { e with tag := fatTag, version := fatVersion }
  { e with crc := crc16 crc16InitVal e.body }

def fatWrite (addr : ℕ) (entry : FatEntry) (w : Dli) : Bool × FatEntry × Dli :=
  match (dliFile line .fat).write ((dliFile line .fat).seek w (addr * fatEntrySize)) entry.sealed.bytes with
  | (n, w') => (n == fatEntrySize, entry.sealed, w')

def fatDefault (entry : FatEntry) : FatEntry := { entry with counter := 0, lastFile := 0 }

/-- The later of the two entries, if they are good; the counters may wrap around. -/
def lastOf (entry : FatEntry) : Option FatEntry → Option FatEntry → FatEntry
  | none, none => fatDefault entry
  | none, some entry1 => entry1
  | some entry0, none => entry0
  | some entry0, some entry1 =>
    if 0 < entry0.counter.toInt32 - entry1.counter.toInt32 then entry0 else entry1

def findLast (entry : FatEntry) (w : Dli) : FatEntry × Dli :=
  match fatRead line 0 w with
  | (r0, w₁) =>
    match fatRead line 1 w₁ with
    | (r1, w₂) => (lastOf entry r0 r1, w₂)

def iniFile : UInt16 → Option DliFile
  | 0 => some .ini0
  | 1 => some .ini1
  | _ => none

def currIni (w : Dli) : Option DliFile := iniFile w.lastEntry.lastFile

def nextIni (w : Dli) : Option DliFile × Dli :=
  let lastFile := (w.lastEntry.lastFile + 1) &&& 1
  (iniFile lastFile, { w with lastEntry := { w.lastEntry with lastFile := lastFile } })

def fatUpdate (w : Dli) : Bool × Dli :=
  let entry := { w.lastEntry with counter := w.lastEntry.counter + 1 }
  match fatWrite line entry.lastFile.toNat entry w with
  | (ok, entry', w') => (ok, { w' with lastEntry := entry' })

end Fat

/-! ## The interface -/

/-- The static data before `dli_init`. -/
def zeroEntry : FatEntry := ⟨0, 0, 0, 0, 0⟩

section Interface

variable (line : ℕ → WriteOutcome)

def dliInit (d : Eeprom) : Dli :=
  match findLast line zeroEntry ⟨d, fun _ => 0, zeroEntry⟩ with
  | (entry, w) => { w with lastEntry := entry }

/-- `SERIALNO_KEY`, `IP_KEY` and `DLI_SECTION`. -/
def serialnoKey : List UInt8 := ascii "serial_no".toList
def ipKey : List UInt8 := ascii "ip_addr".toList
def dliSection : List UInt8 := ascii "dli".toList

def macAddrStrLen : ℕ := 17

/-- Read a text from the boot area: what is returned and what is in the buffer. -/
def bootGet (start : ℕ) (defaultVal : List UInt8) (len : ℕ) (w : Dli) : (Bool × List UInt8) × Dli :=
  let size := min bootSize len
  match (dliFile line .boot).read ((dliFile line .boot).seek w start) size with
  | (bs, w') => if bs.length = size then ((true, bs), w') else ((false, defaultVal.take len), w')

def bootSet (start : ℕ) (value : List UInt8) (w : Dli) : Bool × Dli :=
  match (dliFile line .boot).write ((dliFile line .boot).seek w start) (value ++ [0]) with
  | (n, w') => (n == value.length + 1, w')

/-- What is returned, and the text left in the buffer. -/
def dliGet (key defaultVal : List UInt8) (len : ℕ) (stack : ℕ → UInt8) (w : Dli) : Option ((Bool × List UInt8) × Dli) :=
  if key = serialnoKey then some (bootGet line 0 defaultVal len w)
  else if key = ipKey then some (bootGet line (macAddrStrLen + 1) defaultVal len w)
  else
    match currIni w with
    | none => none
    | some curr => some (iniGetString (dliFile line curr) dliSection key defaultVal len stack w)

/-- The two orders in which the arguments of `ini_setString` may be evaluated. -/
inductive ArgOrder
  | currFirst
  | nextFirst
  deriving DecidableEq, Repr

/-- The source and the destination, and the state in which `ini_setString` is called. -/
def setArgs (w : Dli) : ArgOrder → Option DliFile × Option DliFile × Dli
  | .currFirst =>
    match nextIni w with
    | (next, w') => (currIni w, next, w')
  | .nextFirst =>
    match nextIni w with
    | (next, w') => (currIni w', next, w')

def dliSet (order : ArgOrder) (key value : List UInt8) (stack : ℕ → UInt8) (w : Dli) : Option (Bool × Dli) :=
  if key = serialnoKey then some (bootSet line 0 value w)
  else if key = ipKey then some (bootSet line (macAddrStrLen + 1) value w)
  else
    match setArgs w order with
    | (some curr, some next, w₁) =>
      match iniSetString (dliFile line curr) (dliFile line next) dliSection key (some value) stack w₁ with
      | (false, w₂) => some (false, w₂)
      | (true, w₂) => some (fatUpdate line w₂)
    | _ => none

end Interface

end Bertos
