import Bertos.Io.KFileBlock

/-!
# The EEPROM (`bertos/drv/eeprom.c`)

The device is a byte array of 256 pages of 64 bytes (24XX128), written page by page. A write to the device may be cut:
the `line` says for every write, counted from the start, how many of its bytes are stored at most and whether the bus
reports success. `eeprom_init` is called without verification, so `eeprom_writeDirect` is `eeprom_write`.

A file over some pages reads and writes the bytes of these pages (`kfileblockRead_eeprom`,
`kfileblockWriteLoop_working`); what holds for any line is `kfileblockWriteLoop_frame`.
-/

namespace Bertos

open List Mem

structure WriteOutcome where
  stored : ℕ
  ok : Bool

structure Eeprom where
  mem : ℕ → UInt8
  writes : ℕ

/-- The entry of `mem_info` for the 24XX128. -/
def eepromBlkSize : ℕ := 64
def eepromSize : ℕ := 16384

section Driver

variable (line : ℕ → WriteOutcome)

def eepromReadDirect (d : Eeprom) (idx offset size : ℕ) : (List UInt8 × ℕ) × Eeprom :=
  let size := min size (eepromBlkSize - offset)
  ((Mem.read d.mem (eepromBlkSize * idx + offset) size, size), d)

def eepromWriteDirect (d : Eeprom) (idx : ℕ) (bs : List UInt8) (offset : ℕ) : ℕ × Eeprom :=
  let bs := bs.take (eepromBlkSize - offset)
  let outcome := line d.writes
  (if outcome.ok then bs.length else 0,
    ⟨Mem.write d.mem (eepromBlkSize * idx + offset) (bs.take outcome.stored), d.writes + 1⟩)

def eepromVt : KBlockVTable Eeprom := ⟨eepromReadDirect, eepromWriteDirect line⟩

/-- The descriptor set up by `eeprom_init`. -/
def eepromInit : KBlock where
  buffered := false
  dirty := false
  partialWrite := true
  buf := fun _ => 0
  blkStart := 0
  currBlk := 0
  blkSize := eepromBlkSize
  blkCnt := eepromSize / eepromBlkSize

/-- The device trimmed to `count` pages. -/
def eepromArea (start count : ℕ) : KBlock := { eepromInit with blkStart := start, blkCnt := count }

def workingLine : ℕ → WriteOutcome := fun _ => ⟨eepromBlkSize, true⟩

end Driver

/-! ## Files over some pages -/

section File

variable {line : ℕ → WriteOutcome} {start count : ℕ}

theorem eeprom_addr (start id o : ℕ) :
    eepromBlkSize * (start + id) + o = eepromBlkSize * start + (id * eepromBlkSize + o) := by
  rw [Nat.mul_add, Nat.add_assoc, Nat.mul_comm eepromBlkSize id]

theorem kblockRead_eeprom (line : ℕ → WriteOutcome) (start count : ℕ) (d : Eeprom) {id o size : ℕ}
    (h : o + size ≤ eepromBlkSize) :
    kblockRead (eepromVt line) (eepromArea start count) d id o size =
      ((Mem.read d.mem (eepromBlkSize * start + (id * eepromBlkSize + o)) size, size), d) := by
  rw [← eeprom_addr]
  simp [kblockRead, eepromArea, eepromInit, kblockReadDirect, eepromVt, eepromReadDirect,
    Nat.min_eq_left (show size ≤ eepromBlkSize - o by omega)]

theorem kblockWrite_eeprom (line : ℕ → WriteOutcome) (start count : ℕ) (d : Eeprom) {id o : ℕ} {bs : List UInt8}
    (h : o + bs.length ≤ eepromBlkSize) :
    kblockWrite (eepromVt line) (eepromArea start count) d id bs o =
      (if (line d.writes).ok then bs.length else 0, eepromArea start count,
        ⟨Mem.write d.mem (eepromBlkSize * start + (id * eepromBlkSize + o)) (bs.take (line d.writes).stored),
          d.writes + 1⟩) := by
  rw [← eeprom_addr]
  simp [kblockWrite, eepromArea, eepromInit, kblockWriteDirect, eepromVt, eepromWriteDirect,
    take_of_length_le (show bs.length ≤ eepromBlkSize - o by omega)]

theorem kfileblockRead_eeprom (line : ℕ → WriteOutcome) (start count fsize : ℕ) (d : Eeprom) (pos size : ℕ) :
    kfileblockRead (eepromVt line) ⟨eepromArea start count, pos, fsize⟩ d size =
      (Mem.read d.mem (eepromBlkSize * start + pos) (min size (eepromBlkSize * count - pos)),
        ⟨eepromArea start count, pos + min size (eepromBlkSize * count - pos), fsize⟩, d) := by
  have hread : ∀ d' id o n, d' = d → id < count → o + n ≤ eepromBlkSize → ∃ d'',
      kblockRead (eepromVt line) (eepromArea start count) d' id o n =
        ((read d.mem (eepromBlkSize * start + (id * eepromBlkSize + o)) n, n), d'') ∧ d'' = d := by
    rintro d' id o n rfl _ ho
    exact ⟨d', kblockRead_eeprom line start count d' ho, rfl⟩
  obtain ⟨d', hloop, rfl⟩ := kfileblockReadLoop_flat (eepromBlkSize * start)
    (show 0 < (eepromArea start count).blkSize from Nat.zero_lt_succ 63) hread size pos fsize (Nat.le_refl size) rfl
  rw [Nat.mul_comm eepromBlkSize count]
  exact hloop

/-- A turn of the loop writes up to the end of the block. -/
theorem kfileblockWriteLoop_succ (line : ℕ → WriteOutcome) (start : ℕ) (fsize fuel pos : ℕ) (bs : List UInt8)
    (d : Eeprom) (h : bs ≠ []) (hpos : pos / eepromBlkSize < count) :
    kfileblockWriteLoop (eepromVt line) (fuel + 1) bs ⟨eepromArea start count, pos, fsize⟩ d =
      let k := min bs.length (eepromBlkSize - pos % eepromBlkSize)
      let d' : Eeprom := ⟨write d.mem (eepromBlkSize * start + pos) ((bs.take k).take (line d.writes).stored),
        d.writes + 1⟩
      if (line d.writes).ok then
        match kfileblockWriteLoop (eepromVt line) fuel (bs.drop k) ⟨eepromArea start count, pos + k, fsize⟩ d' with
        | (n, fb, d'') => (k + n, fb, d'')
      else (0, ⟨eepromArea start count, pos, fsize⟩, d') := by
  have h₀ : ¬ bs.length = 0 := fun he => h (eq_nil_of_length_eq_zero he)
  have hcnt : (eepromArea start count).blkCnt = count := rfl
  have hbs : (eepromArea start count).blkSize = eepromBlkSize := rfl
  have hend : ¬ count ≤ pos / eepromBlkSize := Nat.not_le_of_lt hpos
  have hk : 0 < min bs.length (eepromBlkSize - pos % eepromBlkSize) := by
    have := Nat.mod_lt pos (show 0 < eepromBlkSize by decide)
    omega
  have hlen : (bs.take (min bs.length (eepromBlkSize - pos % eepromBlkSize))).length =
      min bs.length (eepromBlkSize - pos % eepromBlkSize) := by
    rw [length_take]
    omega
  have hwrite := @kblockWrite_eeprom line start count d (pos / eepromBlkSize) (pos % eepromBlkSize)
    (bs.take (min bs.length (eepromBlkSize - pos % eepromBlkSize))) (by rw [hlen]; omega)
  rw [hlen, Nat.div_add_mod'] at hwrite
  rw [kfileblockWriteLoop, if_neg h₀]
  simp only [hcnt, hbs, hend, if_false, hwrite]
  cases hok : (line d.writes).ok with
  | true => simp only [if_true, ne_eq, not_true_eq_false, if_false]
  | false =>
    simp only [Bool.false_eq_true, if_false, Nat.add_zero]
    rw [if_pos (by omega)]

/-- Behind the last page nothing is written. -/
theorem kfileblockWriteLoop_end (line : ℕ → WriteOutcome) (start fsize fuel : ℕ) {pos : ℕ} (bs : List UInt8)
    (d : Eeprom) (hpos : ¬ pos / eepromBlkSize < count) :
    kfileblockWriteLoop (eepromVt line) fuel bs ⟨eepromArea start count, pos, fsize⟩ d =
      (0, ⟨eepromArea start count, pos, fsize⟩, d) := by
  have hcnt : (eepromArea start count).blkCnt ≤ pos / (eepromArea start count).blkSize := Nat.le_of_not_lt hpos
  cases fuel <;> simp [kfileblockWriteLoop, hcnt]

theorem kfileblockWrite_page (line : ℕ → WriteOutcome) (start count fsize : ℕ) {pos : ℕ} {bs : List UInt8} (d : Eeprom)
    (hne : bs ≠ []) (hpos : pos / eepromBlkSize < count) (hfit : bs.length ≤ eepromBlkSize - pos % eepromBlkSize) :
    kfileblockWrite (eepromVt line) ⟨eepromArea start count, pos, fsize⟩ d bs =
      (if (line d.writes).ok then bs.length else 0,
        ⟨eepromArea start count, if (line d.writes).ok then pos + bs.length else pos, fsize⟩,
        ⟨Mem.write d.mem (eepromBlkSize * start + pos) (bs.take (line d.writes).stored), d.writes + 1⟩) := by
  obtain ⟨fuel, hfuel⟩ : ∃ fuel, bs.length = fuel + 1 := Nat.exists_eq_succ_of_ne_zero (by simpa using hne)
  have hloop := kfileblockWriteLoop_succ line start fsize fuel pos bs d hne hpos
  simp only [Nat.min_eq_left hfit, take_length, drop_length] at hloop
  have hnil : ∀ (fb : KFileBlock) (d' : Eeprom), kfileblockWriteLoop (eepromVt line) fuel [] fb d' = (0, fb, d') := by
    intro fb d'
    cases fuel <;> simp [kfileblockWriteLoop]
  rw [kfileblockWrite, ← hfuel] at *
  rw [hloop]
  cases (line d.writes).ok <;> simp [hnil]

/-- Whatever the line does, nothing outside the pages changes; while it works, the loop does what it does with a line
that always works. -/
theorem kfileblockWriteLoop_frame (line : ℕ → WriteOutcome) (start count fsize : ℕ) : ∀ (fuel : ℕ) (bs : List UInt8)
    (pos : ℕ) (d : Eeprom),
    ∃ n pos' d', kfileblockWriteLoop (eepromVt line) fuel bs ⟨eepromArea start count, pos, fsize⟩ d =
        (n, ⟨eepromArea start count, pos', fsize⟩, d') ∧ d.writes ≤ d'.writes ∧
      (∀ a, a < eepromBlkSize * start ∨ eepromBlkSize * (start + count) ≤ a → d'.mem a = d.mem a) ∧
      ∀ i, (∀ n, n < i → line n = workingLine n) → d'.writes ≤ i →
        kfileblockWriteLoop (eepromVt workingLine) fuel bs ⟨eepromArea start count, pos, fsize⟩ d =
          kfileblockWriteLoop (eepromVt line) fuel bs ⟨eepromArea start count, pos, fsize⟩ d := by
  intro fuel
  induction fuel with
  | zero =>
    intro bs pos d
    exact ⟨0, pos, d, rfl, Nat.le_refl _, fun _ _ => rfl, fun _ _ _ => rfl⟩
  | succ fuel ih =>
    intro bs pos d
    by_cases hnil : bs = []
    · subst hnil
      exact ⟨0, pos, d, rfl, Nat.le_refl _, fun _ _ => rfl, fun _ _ _ => rfl⟩
    by_cases hpos : pos / eepromBlkSize < count
    · have hmem : ∀ (x : List UInt8) (a : ℕ), x.length ≤ eepromBlkSize - pos % eepromBlkSize →
          a < eepromBlkSize * start ∨ eepromBlkSize * (start + count) ≤ a →
          write d.mem (eepromBlkSize * start + pos) x a = d.mem a := by
        intro x a hx ha
        apply write_of_not_mem
        simp only [eepromBlkSize] at hpos ha hx ⊢
        omega
      rw [kfileblockWriteLoop_succ line start fsize fuel pos bs d hnil hpos,
        kfileblockWriteLoop_succ workingLine start fsize fuel pos bs d hnil hpos]
      have hj : min bs.length (eepromBlkSize - pos % eepromBlkSize) ≤ eepromBlkSize - pos % eepromBlkSize :=
        Nat.min_le_right _ _
      generalize min bs.length (eepromBlkSize - pos % eepromBlkSize) = j at hj
      cases hok : (line d.writes).ok with
      | true =>
        obtain ⟨n, pos', d', he, hw, hm, hagree⟩ := ih (bs.drop j) (pos + j)
          ⟨write d.mem (eepromBlkSize * start + pos) ((bs.take j).take (line d.writes).stored), d.writes + 1⟩
        refine ⟨j + n, pos', d', ?_, Nat.le_of_succ_le hw, ?_, fun i hline hi => ?_⟩
        · simp only [if_true, he]
        · intro a ha
          rw [hm a ha]
          exact hmem _ a (by simp only [length_take]; omega) ha
        · simp only [← hline d.writes (Nat.lt_of_lt_of_le hw hi), hok, hagree i hline hi]
      | false =>
        refine ⟨0, pos, _, rfl, Nat.le_succ _, ?_, fun i hline hi => ?_⟩
        · intro a ha
          exact hmem _ a (by simp only [length_take]; omega) ha
        · rw [hline d.writes hi] at hok
          cases hok
    · have hend := fun line => kfileblockWriteLoop_end line start fsize (fuel + 1) bs d hpos
      exact ⟨0, pos, d, hend line, Nat.le_refl _, fun _ _ => rfl, fun _ _ _ => (hend _).trans (hend _).symm⟩

/-- Over a working line the loop writes all that the area has room for. -/
theorem kfileblockWriteLoop_working (start count fsize : ℕ) : ∀ (fuel : ℕ) (bs : List UInt8) (pos : ℕ) (d : Eeprom),
    bs.length ≤ fuel → ∃ k, kfileblockWriteLoop (eepromVt workingLine) fuel bs ⟨eepromArea start count, pos, fsize⟩ d =
      (min bs.length (eepromBlkSize * count - pos),
        ⟨eepromArea start count, pos + min bs.length (eepromBlkSize * count - pos), fsize⟩,
        ⟨Mem.write d.mem (eepromBlkSize * start + pos) (bs.take (eepromBlkSize * count - pos)), k⟩) := by
  intro fuel bs pos d h
  have hwrite : ∀ p P blk (e : Eeprom) bs, (blk = eepromArea start count ∧ p = pos + P.length ∧
      e.mem = write d.mem (eepromBlkSize * start + pos) P) → bs ≠ [] → p / eepromBlkSize < count →
      p % eepromBlkSize + bs.length ≤ eepromBlkSize → ∃ blk' e',
      kblockWrite (eepromVt workingLine) blk e (p / eepromBlkSize) bs (p % eepromBlkSize) = (bs.length, blk', e') ∧
        blk' = eepromArea start count ∧ p + bs.length = pos + (P ++ bs).length ∧
        e'.mem = write d.mem (eepromBlkSize * start + pos) (P ++ bs) := by
    rintro p P blk e bs ⟨rfl, rfl, hm⟩ _ _ ho
    refine ⟨_, _, kblockWrite_eeprom workingLine start count e ho, rfl, by rw [length_append, Nat.add_assoc], ?_⟩
    have hall : bs.take (workingLine e.writes).stored = bs := take_of_length_le
      (show bs.length ≤ eepromBlkSize by omega)
    rw [hall, hm, Nat.div_add_mod', ← Nat.add_assoc, write_append]
  have hnil : d.mem = write d.mem (eepromBlkSize * start + pos) [] := by simp
  obtain ⟨n, blk, e, hloop, rfl, rfl, -, hmem⟩ := kfileblockWriteLoop_flat (show 0 < eepromBlkSize by decide)
    (fun p P blk e hI => by rw [hI.1]; exact ⟨rfl, rfl⟩) hwrite bs fsize h ⟨rfl, (Nat.add_zero pos).symm, hnil⟩
  rw [nil_append, Nat.min_comm, ← take_eq_take_min] at hmem
  rw [Nat.mul_comm eepromBlkSize count]
  exact ⟨e.writes, hloop.trans (by rw [← hmem])⟩

end File

end Bertos
