import Bertos.Common.Dli
import Bertos.Mware.IniFrame

/-!
# The files and the table in the EEPROM

Each area is a file of fixed size as long as the line works (`dliFile_fixed`, `dliFile_pair`), and whatever the line
does, a file changes nothing outside its own area (`dliFile_preserves`). An entry of the table goes out in one device
write (`fatWrite_spec`) and is read back as it was (`fatCheck_sealed`).
-/

namespace Bertos

open Mem DliFile

/-! ## Areas -/

def DliFile.addr (f : DliFile) : ℕ := eepromBlkSize * f.start

def DliFile.bytes (f : DliFile) : ℕ := eepromBlkSize * f.count

def areaData (m : ℕ → UInt8) (f : DliFile) : List UInt8 := Mem.read m f.addr f.bytes

def DliFile.Beyond (f : DliFile) (a : ℕ) : Prop := a < f.addr ∨ f.addr + f.bytes ≤ a

theorem areas_disjoint {f g : DliFile} (h : f ≠ g) {a : ℕ} (h1 : f.addr ≤ a) (h2 : a < f.addr + f.bytes) :
    g.Beyond a := by
  cases f <;> cases g <;> first
    | exact absurd rfl h
    | (simp only [DliFile.Beyond, addr, bytes, start, count, eepromBlkSize, bootSize,
        fatSize, iniSize] at h1 h2 ⊢; omega)

theorem areaData_congr {m m' : ℕ → UInt8} {f g : DliFile} (h : f ≠ g) (hm : ∀ a, g.Beyond a → m' a = m a) :
    areaData m' f = areaData m f :=
  read_congr fun _ h1 h2 => hm _ (areas_disjoint h h1 h2)

section Files

variable {line : ℕ → WriteOutcome} {f : DliFile} {w : Dli}

theorem fileBlock_eq (w : Dli) (f : DliFile) :
    w.fileBlock f = ⟨eepromArea f.start f.count, w.pos f, f.count * eepromBlkSize⟩ := rfl

/-- The content of a file and the position in it. -/
def dliFileSt (f : DliFile) (w : Dli) : FileSt := ⟨areaData w.eep.mem f, w.pos f⟩

theorem dliFile_read (line : ℕ → WriteOutcome) (f : DliFile) (w : Dli) (n : ℕ) : (dliFile line f).read w n =
    (Mem.read w.eep.mem (f.addr + w.pos f) (min n (f.bytes - w.pos f)),
      w.setPos f (w.pos f + min n (f.bytes - w.pos f))) := by
  have hr := kfileblockRead_eeprom line f.start f.count (f.count * eepromBlkSize) w.eep (w.pos f) n
  simp only [dliFile, fileBlock_eq, hr]
  rfl

/-- The worlds differ in the file only, and the second is later. -/
structure Outside (f : DliFile) (w w' : Dli) : Prop where
  mem : ∀ a, f.Beyond a → w'.eep.mem a = w.eep.mem a
  pos : ∀ g, g ≠ f → w'.pos g = w.pos g
  lastEntry : w'.lastEntry = w.lastEntry
  writes : w.eep.writes ≤ w'.eep.writes

theorem outside_setPos (f : DliFile) (w : Dli) (p : ℕ) : Outside f w (w.setPos f p) :=
  ⟨fun _ _ => rfl, fun g hg => by simp [Dli.setPos, hg], rfl, Nat.le_refl _⟩

theorem outside_read (line : ℕ → WriteOutcome) (f : DliFile) (w : Dli) (n : ℕ) :
    Outside f w ((dliFile line f).read w n).2 ∧ ((dliFile line f).read w n).2.eep = w.eep := by
  rw [dliFile_read]
  exact ⟨outside_setPos f w _, rfl⟩

theorem outside_write (line : ℕ → WriteOutcome) (f : DliFile) (w : Dli) (bs : List UInt8) :
    Outside f w ((dliFile line f).write w bs).2 := by
  obtain ⟨n, pos', d', he, hw, hm, -⟩ := kfileblockWriteLoop_frame line f.start f.count (f.count * eepromBlkSize)
    bs.length bs
    (w.pos f) w.eep
  have hwrite : (dliFile line f).write w bs = (n, { w.setPos f pos' with eep := d' }) := by
    simp only [dliFile, kfileblockWrite, fileBlock_eq, he]
  rw [hwrite]
  refine ⟨?_, fun g hg => by simp [Dli.setPos, hg], rfl, hw⟩
  intro a ha
  apply hm
  simp only [DliFile.Beyond, addr, bytes] at ha
  rw [Nat.mul_add]
  exact ha

/-- A file is a file of fixed size if the line works; the rest of the world may be looked at by any `fr`. -/
theorem dliFile_fixed {α : Type} {fr : Dli → α} (hfr : ∀ w w', Outside f w w' → fr w' = fr w) :
    FixedFile (dliFile workingLine f) (dliFileSt f) fr where
  read := by
    intro w n
    have hrest : (dliFileSt f w).rest.take n = read w.eep.mem (f.addr + w.pos f) (min n (f.bytes - w.pos f)) :=
      take_drop_read _ _ _ _ _
    refine ⟨?_, ?_, hfr _ _ (outside_read workingLine f w n).1⟩
    · rw [dliFile_read, hrest]
    · rw [hrest, dliFile_read]
      simp [dliFileSt, Dli.setPos, FileSt.advance]
  write := by
    intro w bs
    obtain ⟨k, hk⟩ := kfileblockWriteLoop_working f.start f.count (f.count * eepromBlkSize) bs.length bs (w.pos f) w.eep
      (Nat.le_refl _)
    have hwrite : (dliFile workingLine f).write w bs = (min bs.length (f.bytes - w.pos f),
        { w.setPos f (w.pos f + min bs.length (f.bytes - w.pos f)) with
          eep := ⟨write w.eep.mem (f.addr + w.pos f) (bs.take (f.bytes - w.pos f)), k⟩ }) := by
      simp only [dliFile, kfileblockWrite, fileBlock_eq, hk]
      rfl
    have hroom : (dliFileSt f w).room = f.bytes - w.pos f := by
      simp [FileSt.room, dliFileSt, areaData]
    refine ⟨?_, ?_, hfr _ _ (outside_write workingLine f w bs)⟩
    · rw [hwrite, hroom]
    · rw [hwrite]
      simp only [dliFileSt, FileSt.store, areaData, Dli.setPos, if_true]
      rw [read_write_clipped]
      have hroom' : (⟨read w.eep.mem f.addr f.bytes, w.pos f⟩ : FileSt).room = f.bytes - w.pos f := hroom
      rw [hroom']
  seekPos := fun w => rfl
  seek := by
    intro w p
    refine ⟨?_, hfr _ _ (outside_setPos f w p)⟩
    simp [dliFile, dliFileSt, Dli.setPos]
  size := by
    intro w
    simp [dliFile, dliFileSt, areaData, bytes, Nat.mul_comm]

theorem dliFile_pair {g : DliFile} (h : f ≠ g) {α : Type} {fr : Dli → α} (hf : ∀ w w', Outside f w w' → fr w' = fr w)
    (hg : ∀ w w', Outside g w w' → fr w' = fr w) :
    FilePair (dliFile workingLine f) (dliFile workingLine g) (dliFileSt f) (dliFileSt g) fr where
  src := by
    apply dliFile_fixed
    intro w w' ho
    rw [hf w w' ho, dliFileSt, dliFileSt, areaData_congr h.symm ho.mem, ho.pos g h.symm]
  dst := by
    apply dliFile_fixed
    intro w w' ho
    rw [hg w w' ho, dliFileSt, dliFileSt, areaData_congr h ho.mem, ho.pos f h]

/-- Whatever the line does, a file keeps what the rest of the world keeps. -/
theorem dliFile_preserves {P : Dli → Prop} (line : ℕ → WriteOutcome) (f : DliFile)
    (hP : ∀ w w', Outside f w w' → P w → P w') : Preserves (dliFile line f) P where
  read := fun w n hw => hP _ _ (outside_read line f w n).1 hw
  seek := fun w p hw => hP _ _ (outside_setPos f w p) hw
  write := fun w bs hw => hP _ _ (outside_write line f w bs) hw

theorem dliFile_reads {P : Dli → Prop} (line : ℕ → WriteOutcome) (f : DliFile)
    (hP : ∀ w w', w'.eep = w.eep → w'.lastEntry = w.lastEntry → P w → P w') : Reads (dliFile line f) P where
  read := fun w n hw => hP _ _ (outside_read line f w n).2 (outside_read line f w n).1.lastEntry hw
  seek := fun w _ hw => hP w _ rfl rfl hw

theorem dliFile_with_write (line line' : ℕ → WriteOutcome) (f : DliFile) :
    { dliFile line f with write := (dliFile line' f).write } = dliFile line' f := by
  have hread : (dliFile line f).read = (dliFile line' f).read := by
    funext w n
    rw [dliFile_read, dliFile_read]
  simp only [hread]
  rfl

theorem dliFile_write_agrees {i : ℕ} (hline : ∀ n, n < i → line n = workingLine n) (bs : List UInt8)
    (h : ((dliFile line f).write w bs).2.eep.writes ≤ i) :
    (dliFile line f).write w bs = (dliFile workingLine f).write w bs := by
  obtain ⟨n, pos', d', he, -, -, hagree⟩ := kfileblockWriteLoop_frame line f.start f.count (f.count * eepromBlkSize)
    bs.length bs (w.pos f) w.eep
  simp only [dliFile, kfileblockWrite, fileBlock_eq, he] at h
  simp only [dliFile, kfileblockWrite, fileBlock_eq, hagree i hline h]

theorem dliFile_write_page (line : ℕ → WriteOutcome) (f : DliFile) (w : Dli) {bs : List UInt8} (hne : bs ≠ [])
    (hpos : w.pos f / eepromBlkSize < f.count) (hfit : bs.length ≤ eepromBlkSize - w.pos f % eepromBlkSize) :
    ∃ p, (dliFile line f).write w bs = (if (line w.eep.writes).ok then bs.length else 0,
      { w.setPos f p with eep := ⟨write w.eep.mem (f.addr + w.pos f) (bs.take (line w.eep.writes).stored),
        w.eep.writes + 1⟩ }) := by
  have hpage := kfileblockWrite_page line f.start f.count (f.count * eepromBlkSize) w.eep hne hpos hfit
  refine ⟨if (line w.eep.writes).ok then w.pos f + bs.length else w.pos f, ?_⟩
  simp only [dliFile, fileBlock_eq, hpage]
  rfl

end Files

/-! ## The table -/

def fatSlot (m : ℕ → UInt8) (n : ℕ) : List UInt8 := Mem.read m (DliFile.fat.addr + n * fatEntrySize) fatEntrySize

section Fat

variable {line : ℕ → WriteOutcome} {w : Dli} {m : ℕ → UInt8} {e : FatEntry} {n : ℕ}

theorem length_fatSlot (m : ℕ → UInt8) (n : ℕ) : (fatSlot m n).length = fatEntrySize := length_read _ _ _

theorem FatEntry.length_bytes (e : FatEntry) : e.bytes.length = fatEntrySize := rfl

theorem FatEntry.bytes_ne_nil (e : FatEntry) : e.bytes ≠ [] := List.ne_nil_of_length_pos (Nat.zero_lt_succ 11)

theorem FatEntry.ofBytes_bytes (e : FatEntry) : FatEntry.ofBytes e.bytes = e := by
  have htwo : ∀ w : UInt16, leNat (leBytesOf 2 w.toNat) = w.toNat := fun w => leNat_leBytesOf 2 w.toNat_lt
  have hfour : leNat (leBytesOf 4 e.counter.toNat) = e.counter.toNat := leNat_leBytesOf 4 e.counter.toNat_lt
  have h : FatEntry.ofBytes e.bytes =
      ⟨.ofNat (leNat (leBytesOf 2 e.tag.toNat)), .ofNat (leNat (leBytesOf 2 e.version.toNat)),
        .ofNat (leNat (leBytesOf 4 e.counter.toNat)), .ofNat (leNat (leBytesOf 2 e.lastFile.toNat)),
        .ofNat (leNat (leBytesOf 2 e.crc.toNat))⟩ := rfl
  rw [h, htwo, htwo, hfour, htwo, htwo]
  simp

theorem fatCheck_sealed (e : FatEntry) : fatCheck e.sealed.bytes = some e.sealed := by
  have hbody : e.sealed.bytes.take 10 = e.sealed.body := rfl
  have hcrc : crc16 crc16InitVal e.sealed.body = e.sealed.crc := rfl
  have htag : e.sealed.tag = fatTag := rfl
  have hver : e.sealed.version = fatVersion := rfl
  simp [fatCheck, FatEntry.ofBytes_bytes, hbody, hcrc, htag, hver]

theorem fatCheck_eq {bs : List UInt8} (h : fatCheck bs = some e) : e = FatEntry.ofBytes bs := by
  unfold fatCheck at h
  dsimp only at h
  split at h
  · cases h
  · split at h
    · cases h
    · split at h
      · exact (Option.some.inj h).symm
      · cases h

/-- Reading an entry checks its slot and moves the position past it. -/
theorem fatRead_eq (line : ℕ → WriteOutcome) (w : Dli) (hn : n ≤ 1) :
    fatRead line n w = (fatCheck (fatSlot w.eep.mem n), w.setPos .fat (n * fatEntrySize + fatEntrySize)) := by
  have hmin : min fatEntrySize (fat.bytes - n * fatEntrySize) = fatEntrySize := by
    simp only [bytes, count, eepromBlkSize, fatSize, fatEntrySize]
    omega
  have hpos : (w.setPos .fat (n * fatEntrySize)).pos .fat = n * fatEntrySize := by simp [Dli.setPos]
  have hset : (w.setPos .fat (n * fatEntrySize)).setPos .fat (n * fatEntrySize + fatEntrySize) =
      w.setPos .fat (n * fatEntrySize + fatEntrySize) := by
    simp only [Dli.setPos]
    congr
    funext g
    split <;> rfl
  have hread := dliFile_read line .fat (w.setPos .fat (n * fatEntrySize)) fatEntrySize
  rw [hpos, hmin, hset] at hread
  have hseek : (dliFile line .fat).seek w (n * fatEntrySize) = w.setPos .fat (n * fatEntrySize) := rfl
  simp only [fatRead, hseek, hread, length_read, ne_eq, not_true_eq_false, if_false]
  rfl

/-- The entry that a restart takes for the last one. -/
def selected (m : ℕ → UInt8) : FatEntry := lastOf zeroEntry (fatCheck (fatSlot m 0)) (fatCheck (fatSlot m 1))

/-- **A restart** reads the last entry. -/
theorem dliInit_spec (line : ℕ → WriteOutcome) (d : Eeprom) :
    (dliInit line d).eep = d ∧ (dliInit line d).lastEntry = selected d.mem := by
  simp only [dliInit, findLast, fatRead_eq line _ (Nat.zero_le 1), fatRead_eq line _ (Nat.le_refl 1)]
  exact ⟨rfl, rfl⟩

/-- **Writing an entry** is one write to the device. -/
theorem fatWrite_spec (line : ℕ → WriteOutcome) (e : FatEntry) (w : Dli) (hn : n ≤ 1) :
    ∃ w', fatWrite line n e w = ((line w.eep.writes).ok, e.sealed, w') ∧ w'.lastEntry = w.lastEntry ∧
      w'.eep = ⟨Mem.write w.eep.mem (DliFile.fat.addr + n * fatEntrySize)
        (e.sealed.bytes.take (line w.eep.writes).stored), w.eep.writes + 1⟩ := by
  have hpage : n * fatEntrySize / eepromBlkSize < fat.count := by
    simp only [count, eepromBlkSize, fatSize, fatEntrySize]
    omega
  have hfit : e.sealed.bytes.length ≤ eepromBlkSize - n * fatEntrySize % eepromBlkSize := by
    rw [e.sealed.length_bytes]
    obtain rfl | rfl := Nat.le_one_iff_eq_zero_or_eq_one.mp hn <;> decide
  have hpos : (w.setPos .fat (n * fatEntrySize)).pos .fat = n * fatEntrySize := by simp [Dli.setPos]
  have hseek : (dliFile line .fat).seek w (n * fatEntrySize) = w.setPos .fat (n * fatEntrySize) := rfl
  obtain ⟨p, hwrite⟩ := dliFile_write_page line .fat (w.setPos .fat (n * fatEntrySize))
    e.sealed.bytes_ne_nil (by rw [hpos]; exact hpage) (by rw [hpos]; exact hfit)
  rw [hpos] at hwrite
  refine ⟨((dliFile line .fat).write (w.setPos .fat (n * fatEntrySize)) e.sealed.bytes).2, ?_, ?_, ?_⟩
  · have heep : (w.setPos .fat (n * fatEntrySize)).eep = w.eep := rfl
    simp only [fatWrite, hseek, hwrite, heep, e.sealed.length_bytes]
    cases (line w.eep.writes).ok <;> rfl
  · rw [hwrite]
    rfl
  · rw [hwrite]
    rfl

end Fat

end Bertos
