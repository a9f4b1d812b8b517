import Bertos.Common.DliStore

/-!
# Changing a key under power loss

`cutLine i k` is a device whose power is lost in write `i`, after `k` bytes. A call that is cut while it writes the
other file leaves the table alone (`iniPart_frame`); the entry of the table is written when that file is complete, and
a torn entry is refused or still names one of the two files (`Synced.torn`). So a restart finds the old file or the new
one (`dliSet_atomic`), in every state that completed calls and restarts reach.
-/

namespace Bertos

open List

/-- Power is lost in write `i`, of which `k` bytes are stored; nothing is stored afterwards. -/
def cutLine (i k : ℕ) (ok : ℕ → Bool) (n : ℕ) : WriteOutcome :=
  if n < i then workingLine n else if n = i then ⟨k, ok n⟩ else ⟨0, ok n⟩

/-- The keys that are stored in the ini files. -/
def IniKey (key : List UInt8) : Prop := key ≠ serialnoKey ∧ key ≠ ipKey

instance (key : List UInt8) : Decidable (IniKey key) := instDecidableAnd

/-- The states that completed calls and restarts reach from an erased EEPROM. -/
inductive DliRun : Dli → Prop
  | start (line : ℕ → WriteOutcome) (writes : ℕ) : DliRun (dliInit line ⟨fun _ => 0xFF, writes⟩)
  | restart {w : Dli} (line : ℕ → WriteOutcome) : DliRun w → DliRun (dliInit line w.eep)
  | set {w w' : Dli} {key value : List UInt8} {stack : ℕ → UInt8} : DliRun w → IniKey key →
      dliSet workingLine .currFirst key value stack w = some (true, w') → DliRun w'

/-! ## The table -/

/-- The entry that `fat_update` writes. -/
def entryOf (counter : UInt32) (lastFile : UInt16) : FatEntry := FatEntry.sealed ⟨0, 0, counter, lastFile, 0⟩

def erasedSlot : List UInt8 := List.replicate fatEntrySize 0xFF

/-- The index of the other file, as `nextIni` computes it. -/
def otherFile (p : UInt16) : UInt16 := (p + 1) &&& 1

/-- `last_file` is the index of a file. -/
abbrev Dli.HasFile (w : Dli) : Prop := w.lastEntry.lastFile = 0 ∨ w.lastEntry.lastFile = 1

theorem Dli.HasFile.of_eq {w w' : Dli} (h : w.HasFile) (he : w'.lastEntry = w.lastEntry) : w'.HasFile := by
  rw [HasFile, he]
  exact h

variable {q : UInt16}

theorem eq_otherFile {p : UInt16} (hp : p = 0 ∨ p = 1) (hq : q = 0 ∨ q = 1) (h : q ≠ p) : q = otherFile p := by
  obtain rfl | rfl := hp <;> obtain rfl | rfl := hq <;> first | exact absurd rfl h | rfl

/-- The table agrees with `last_entry`, and the entry that is written next is the older one or was never written. -/
inductive Synced (w : Dli) : Prop
  | fresh (counter : w.lastEntry.counter = 0) (lastFile : w.lastEntry.lastFile = 0)
      (slot0 : fatSlot w.eep.mem 0 = erasedSlot) (slot1 : fatSlot w.eep.mem 1 = erasedSlot)
  | first (counter : w.lastEntry.counter = 1) (lastFile : w.lastEntry.lastFile = 1)
      (slot0 : fatSlot w.eep.mem 0 = erasedSlot) (slot1 : fatSlot w.eep.mem 1 = (entryOf 1 1).bytes)
  | both (lastFile : w.lastEntry.lastFile = 0 ∨ w.lastEntry.lastFile = 1)
      (slot : fatSlot w.eep.mem w.lastEntry.lastFile.toNat = (entryOf w.lastEntry.counter w.lastEntry.lastFile).bytes)
      (older : fatSlot w.eep.mem (otherFile w.lastEntry.lastFile).toNat =
        (entryOf (w.lastEntry.counter - 1) (otherFile w.lastEntry.lastFile)).bytes)

theorem fatCheck_entryOf (c : UInt32) (p : UInt16) : fatCheck (entryOf c p).bytes = some (entryOf c p) :=
  fatCheck_sealed _

section Table

variable {w : Dli} {m : ℕ → UInt8}

/-- The entry with the later counter is the last one, also when the counter wraps around. -/
theorem lastOf_entryOf (e : FatEntry) (c : UInt32) (p q : UInt16) :
    lastOf e (some (entryOf c p)) (some (entryOf (c - 1) q)) = entryOf c p ∧
      lastOf e (some (entryOf (c - 1) q)) (some (entryOf c p)) = entryOf c p := by
  have hlater : c - (c - 1) = 1 := by grind
  have hearlier : c - 1 - c = -1 := by grind
  have hc : (entryOf c p).counter = c := rfl
  have hc' : (entryOf (c - 1) q).counter = c - 1 := rfl
  constructor
  · have h : 0 < c.toInt32 - (c - 1).toInt32 := by
      rw [← UInt32.toInt32_sub, hlater]
      decide
    simp only [lastOf, hc, hc', if_pos h]
  · have h : ¬ 0 < (c - 1).toInt32 - c.toInt32 := by
      rw [← UInt32.toInt32_sub, hearlier]
      decide
    simp only [lastOf, hc, hc', if_neg h]

/-- What a restart takes for the last entry is one of the good ones, or the default. -/
theorem lastOf_cases (e : FatEntry) (r0 r1 : Option FatEntry) :
    lastOf e r0 r1 = fatDefault e ∨ r0 = some (lastOf e r0 r1) ∨ r1 = some (lastOf e r0 r1) := by
  cases r0 with
  | none =>
    cases r1 with
    | none => exact .inl rfl
    | some e1 => exact .inr (.inr rfl)
  | some e0 =>
    cases r1 with
    | none => exact .inr (.inl rfl)
    | some e1 =>
      simp only [lastOf]
      split
      · exact .inr (.inl rfl)
      · exact .inr (.inr rfl)

theorem Synced.lastFile (h : Synced w) : w.HasFile := by
  cases h with
  | fresh _ h => exact .inl h
  | first _ h => exact .inr h
  | both h => exact h

/-- Being in step depends on the two entries and on the copy in memory alone. -/
theorem Synced.congr {w' : Dli} (h : Synced w) (hs : ∀ n, n ≤ 1 → fatSlot w'.eep.mem n = fatSlot w.eep.mem n)
    (hc : w'.lastEntry.counter = w.lastEntry.counter) (hl : w'.lastEntry.lastFile = w.lastEntry.lastFile) :
    Synced w' := by
  cases h with
  | fresh hc' hl' h0 h1 =>
    exact .fresh (hc.trans hc') (hl.trans hl') ((hs 0 (Nat.zero_le 1)).trans h0) ((hs 1 (Nat.le_refl 1)).trans h1)
  | first hc' hl' h0 h1 =>
    exact .first (hc.trans hc') (hl.trans hl') ((hs 0 (Nat.zero_le 1)).trans h0) ((hs 1 (Nat.le_refl 1)).trans h1)
  | both hl' h0 h1 =>
    have hle : w.lastEntry.lastFile.toNat ≤ 1 ∧ (otherFile w.lastEntry.lastFile).toNat ≤ 1 := by
      obtain hl' | hl' := hl' <;> rw [hl'] <;> decide
    refine .both ?_ ?_ ?_
    · rw [hl]
      exact hl'
    · rw [hl, hc, hs _ hle.1]
      exact h0
    · rw [hl, hc, hs _ hle.2]
      exact h1

/-- **A restart finds what was there**. -/
theorem Synced.selected (h : Synced w) :
    (selected w.eep.mem).counter = w.lastEntry.counter ∧ (selected w.eep.mem).lastFile = w.lastEntry.lastFile := by
  cases h with
  | fresh hc hl h0 h1 =>
    rw [Bertos.selected, h0, h1, hc, hl]
    exact ⟨rfl, rfl⟩
  | first hc hl h0 h1 =>
    rw [Bertos.selected, h0, h1, fatCheck_entryOf, hc, hl]
    exact ⟨rfl, rfl⟩
  | both hl hs ho =>
    have hsel := lastOf_entryOf zeroEntry w.lastEntry.counter w.lastEntry.lastFile (otherFile w.lastEntry.lastFile)
    obtain hl | hl := hl
    · rw [hl] at hs ho hsel
      rw [Bertos.selected, show 0 = (0 : UInt16).toNat from rfl, hs, show 1 = (otherFile 0).toNat from rfl, ho,
        fatCheck_entryOf, fatCheck_entryOf, hsel.1, hl]
      exact ⟨rfl, rfl⟩
    · rw [hl] at hs ho hsel
      rw [Bertos.selected, show 0 = (otherFile 1).toNat from rfl, ho, show 1 = (1 : UInt16).toNat from rfl, hs,
        fatCheck_entryOf, fatCheck_entryOf, hsel.2, hl]
      exact ⟨rfl, rfl⟩

/-- The table after a write to an entry that stores `k` bytes. -/
theorem fatSlot_write_self (n k : ℕ) {bs : List UInt8} (hbs : bs.length = fatEntrySize) :
    fatSlot (Mem.write m (DliFile.fat.addr + n * fatEntrySize) (bs.take k)) n = bs.take k ++ (fatSlot m n).drop k := by
  have hread := Mem.read_write_clipped m (DliFile.fat.addr + n * fatEntrySize) (bs.take k) 0 fatEntrySize
  rw [Nat.add_zero, Nat.sub_zero, take_of_length_le (i := fatEntrySize) (by rw [length_take]; omega)] at hread
  rw [fatSlot, hread, take_zero]
  congr 1
  by_cases hk : k ≤ fatEntrySize
  · rw [length_take]
    congr 1
    omega
  · rw [drop_of_length_le (by simp [hbs]; omega), drop_of_length_le (by simp [fatSlot]; omega)]

theorem fatSlot_write_other {n n' : ℕ} (h : n ≠ n') (k : ℕ) {bs : List UInt8} (hbs : bs.length = fatEntrySize) :
    fatSlot (Mem.write m (DliFile.fat.addr + n * fatEntrySize) (bs.take k)) n' = fatSlot m n' := by
  apply Mem.read_write_of_disjoint
  rw [length_take, hbs]
  simp only [fatEntrySize]
  omega

/-- A mixture of two entries for one file, if it is good at all, is an entry for that file. -/
theorem torn_over_older {c c' : UInt32} {e : FatEntry} (k : ℕ)
    (h : fatCheck ((entryOf c q).bytes.take k ++ (entryOf c' q).bytes.drop k) = some e) : e.lastFile = q := by
  have hmix : ∀ k, (((entryOf c q).bytes.take k ++ (entryOf c' q).bytes.drop k).drop 8).take 2 =
      leBytesOf 2 q.toNat
    | 0 | 1 | 2 | 3 | 4 | 5 | 6 | 7 | 8 | 9 | _ + 10 => rfl
  rw [fatCheck_eq h, FatEntry.ofBytes]
  simp only [hmix, leNat_leBytesOf 2 q.toNat_lt, UInt16.ofNat_toNat]

/-- The first entries of both files: no proper part of one over erased bytes is good. -/
theorem torn_over_erased {c : UInt32} {e : FatEntry} (hc : c = 1 ∧ q = 1 ∨ c = 2 ∧ q = 0) (k : ℕ)
    (h : fatCheck ((entryOf c q).bytes.take k ++ erasedSlot.drop k) = some e) : e.lastFile = q := by
  have hall : ∀ k : Fin fatEntrySize, fatCheck ((entryOf 1 1).bytes.take k ++ erasedSlot.drop k) = none ∧
      fatCheck ((entryOf 2 0).bytes.take k ++ erasedSlot.drop k) = none := by
    decide +kernel
  by_cases hk : k < fatEntrySize
  · have hnone : fatCheck ((entryOf c q).bytes.take k ++ erasedSlot.drop k) = none := by
      obtain ⟨rfl, rfl⟩ | ⟨rfl, rfl⟩ := hc
      · exact (hall ⟨k, hk⟩).1
      · exact (hall ⟨k, hk⟩).2
    rw [hnone] at h
    cases h
  · have hlen : (entryOf c q).bytes.length ≤ k := by
      rw [FatEntry.length_bytes]
      omega
    have hlen' : erasedSlot.length ≤ k := by
      rw [erasedSlot, length_replicate]
      omega
    rw [take_of_length_le hlen, drop_of_length_le hlen', append_nil, fatCheck_entryOf] at h
    cases h
    rfl

/-- The entry of the file in use names it, if it is good, and so does the other one while it is written. -/
theorem Synced.slots (h : Synced w) :
    (∀ e, fatCheck (fatSlot w.eep.mem w.lastEntry.lastFile.toNat) = some e → e.lastFile = w.lastEntry.lastFile) ∧
      ∀ k e, fatCheck ((entryOf (w.lastEntry.counter + 1) (otherFile w.lastEntry.lastFile)).bytes.take k ++
        (fatSlot w.eep.mem (otherFile w.lastEntry.lastFile).toNat).drop k) = some e →
        e.lastFile = otherFile w.lastEntry.lastFile := by
  cases h with
  | fresh hc hl h0 h1 =>
    rw [hc, hl]
    constructor
    · intro e he
      rw [show (0 : UInt16).toNat = 0 from rfl, h0] at he
      cases he
    · intro k e he
      rw [show (otherFile 0).toNat = 1 from rfl, h1] at he
      exact torn_over_erased (.inl ⟨rfl, rfl⟩) k he
  | first hc hl h0 h1 =>
    rw [hc, hl]
    constructor
    · intro e he
      rw [show (1 : UInt16).toNat = 1 from rfl, h1, fatCheck_entryOf] at he
      cases he
      rfl
    · intro k e he
      rw [show (otherFile 1).toNat = 0 from rfl, h0] at he
      exact torn_over_erased (.inr ⟨rfl, rfl⟩) k he
  | both hl hs ho =>
    constructor
    · intro e he
      rw [hs, fatCheck_entryOf] at he
      cases he
      rfl
    · intro k e he
      rw [ho] at he
      exact torn_over_older k he

/-- The memory after `fat_update` has stored `k` bytes of the entry. -/
def fatCut (w : Dli) (k : ℕ) : ℕ → UInt8 :=
  Mem.write w.eep.mem (DliFile.fat.addr + (otherFile w.lastEntry.lastFile).toNat * fatEntrySize)
    ((entryOf (w.lastEntry.counter + 1) (otherFile w.lastEntry.lastFile)).bytes.take k)

theorem Synced.fatSlot_fatCut (h : Synced w) (k : ℕ) :
    fatSlot (fatCut w k) w.lastEntry.lastFile.toNat = fatSlot w.eep.mem w.lastEntry.lastFile.toNat ∧
      fatSlot (fatCut w k) (otherFile w.lastEntry.lastFile).toNat =
        (entryOf (w.lastEntry.counter + 1) (otherFile w.lastEntry.lastFile)).bytes.take k ++
          (fatSlot w.eep.mem (otherFile w.lastEntry.lastFile).toNat).drop k := by
  have hne : (otherFile w.lastEntry.lastFile).toNat ≠ w.lastEntry.lastFile.toNat := by
    obtain hl | hl := h.lastFile <;> rw [hl] <;> decide
  exact ⟨fatSlot_write_other hne k (FatEntry.length_bytes _), fatSlot_write_self _ k (FatEntry.length_bytes _)⟩

/-- **A torn entry** is refused or names one of the two files. -/
theorem Synced.torn (h : Synced w) (k : ℕ) :
    (Bertos.selected (fatCut w k)).lastFile = 0 ∨ (Bertos.selected (fatCut w k)).lastFile = 1 := by
  obtain ⟨hp, hq⟩ := h.slots
  obtain ⟨hsp, hsq⟩ := h.fatSlot_fatCut k
  have hgood : ∀ n, n ≤ 1 → ∀ e, fatCheck (fatSlot (fatCut w k) n) = some e → e.lastFile = 0 ∨ e.lastFile = 1 := by
    intro n hn e he
    by_cases hcur : n = w.lastEntry.lastFile.toNat
    · rw [hcur, hsp] at he
      rw [hp e he]
      exact h.lastFile
    · have hoth : n = (otherFile w.lastEntry.lastFile).toNat ∧
          (otherFile w.lastEntry.lastFile = 0 ∨ otherFile w.lastEntry.lastFile = 1) := by
        obtain hl | hl := h.lastFile
        · rw [hl] at hcur ⊢
          exact ⟨show n = 1 by have : n ≠ 0 := hcur; omega, .inr rfl⟩
        · rw [hl] at hcur ⊢
          exact ⟨show n = 0 by have : n ≠ 1 := hcur; omega, .inl rfl⟩
      rw [hoth.1, hsq] at he
      rw [hq k e he]
      exact hoth.2
  obtain hd | hd | hd := lastOf_cases zeroEntry (fatCheck (fatSlot (fatCut w k) 0)) (fatCheck (fatSlot (fatCut w k) 1))
  · left
    rw [Bertos.selected, hd]
    rfl
  · exact hgood 0 (Nat.zero_le 1) _ hd
  · exact hgood 1 (Nat.le_refl 1) _ hd

/-- **A written entry** is the last one. -/
theorem Synced.written (h : Synced w) {w' : Dli} (hm : w'.eep.mem = fatCut w fatEntrySize)
    (he : w'.lastEntry = entryOf (w.lastEntry.counter + 1) (otherFile w.lastEntry.lastFile)) : Synced w' := by
  obtain ⟨hsp, hsq⟩ := h.fatSlot_fatCut fatEntrySize
  rw [take_of_length_le (Nat.le_of_eq (FatEntry.length_bytes _)),
    drop_of_length_le (Nat.le_of_eq (length_fatSlot _ _)), append_nil] at hsq
  rw [← hm] at hsp hsq
  have hcount : w'.lastEntry.counter = w.lastEntry.counter + 1 := by rw [he]; rfl
  have hfile : w'.lastEntry.lastFile = otherFile w.lastEntry.lastFile := by rw [he]; rfl
  cases h with
  | fresh hc hl h0 h1 =>
    rw [hc, hl] at hsq
    rw [hl] at hsp hfile
    rw [hc] at hcount
    exact .first hcount hfile (hsp.trans h0) hsq
  | first hc hl h0 h1 =>
    rw [hc, hl] at hsq
    rw [hl] at hsp hfile
    rw [hc] at hcount
    exact .both (.inl hfile) (by rw [hfile, hcount]; exact hsq) (by rw [hfile, hcount]; exact hsp.trans h1)
  | both hl hs ho =>
    have hback : otherFile (otherFile w.lastEntry.lastFile) = w.lastEntry.lastFile := by
      obtain hl | hl := hl <;> rw [hl] <;> rfl
    refine .both ?_ ?_ ?_
    · rw [hfile]
      obtain hl | hl := hl
      · exact .inr (by rw [hl]; rfl)
      · exact .inl (by rw [hl]; rfl)
    · rw [hfile, hcount]
      exact hsq
    · rw [hfile, hcount, hback, UInt32.add_sub_cancel]
      exact hsp.trans hs

end Table

/-! ## The call -/

def fileOf (p : UInt16) : DliFile := if p = 0 then .ini0 else .ini1

section Call

variable {w : Dli} {key value : List UInt8} {stack : ℕ → UInt8} {line : ℕ → WriteOutcome}

theorem currIni_eq (h : w.HasFile) :
    currIni w = some (fileOf w.lastEntry.lastFile) := by
  obtain h | h := h <;> rw [currIni, h] <;> rfl

/-- The state in which `ini_setString` is called. -/
def toggled (w : Dli) : Dli :=
  { w with lastEntry := { w.lastEntry with lastFile := otherFile w.lastEntry.lastFile } }

/-- The source of `ini_setString`. -/
def sourceFile (w : Dli) : ArgOrder → DliFile
  | .currFirst => fileOf w.lastEntry.lastFile
  | .nextFirst => fileOf (otherFile w.lastEntry.lastFile)

/-- The call of `ini_setString` in `dli_set`. -/
def iniPart (line : ℕ → WriteOutcome) (order : ArgOrder) (key value : List UInt8) (stack : ℕ → UInt8) (w : Dli) :
    Bool × Dli :=
  iniSetString (dliFile line (sourceFile w order)) (dliFile line (fileOf (otherFile w.lastEntry.lastFile)))
    dliSection key (some value) stack (toggled w)

/-- `dli_set` for an ini key: the file, and if it was written, the table. -/
theorem dliSet_eq (h : w.HasFile) (hk : IniKey key) (order : ArgOrder) :
    dliSet line order key value stack w =
      some (if (iniPart line order key value stack w).1 then fatUpdate line (iniPart line order key value stack w).2
        else iniPart line order key value stack w) := by
  have hargs : setArgs w order =
      (some (sourceFile w order), some (fileOf (otherFile w.lastEntry.lastFile)), toggled w) := by
    cases order <;> obtain h | h := h <;> simp only [setArgs, nextIni, currIni, sourceFile, toggled, h] <;> rfl
  have hpart : iniSetString (dliFile line (sourceFile w order)) (dliFile line (fileOf (otherFile w.lastEntry.lastFile)))
      dliSection key (some value) stack (toggled w) = iniPart line order key value stack w := rfl
  simp only [dliSet, if_neg hk.1, if_neg hk.2, hargs, hpart]
  rcases iniPart line order key value stack w with ⟨_ | _, w₂⟩ <;> simp

/-- Only the file `f` and the positions in the files have changed. -/
structure KeptBeside (f : DliFile) (w w' : Dli) : Prop where
  mem : ∀ a, f.Beyond a → w'.eep.mem a = w.eep.mem a
  lastEntry : w'.lastEntry = w.lastEntry

/-- **The file is written first**: the table, the file in use and `last_entry` stay as they are. -/
theorem iniPart_frame (line : ℕ → WriteOutcome) (order : ArgOrder) (key value : List UInt8) (stack : ℕ → UInt8)
    (w : Dli) :
    KeptBeside (fileOf (otherFile w.lastEntry.lastFile)) (toggled w) (iniPart line order key value stack w).2 := by
  apply iniSetString_preserves
  · apply dliFile_reads
    intro w1 w₂ heep he h
    exact ⟨by rw [heep]; exact h.mem, he.trans h.lastEntry⟩
  · apply dliFile_preserves
    intro w1 w₂ ho h
    exact ⟨fun a ha => (ho.mem a ha).trans (h.mem a ha), ho.lastEntry.trans h.lastEntry⟩
  · exact ⟨fun _ _ => rfl, rfl⟩

/-- While the line works, the file is written as with a line that always works. -/
theorem iniPart_agrees {i k : ℕ} {ok : ℕ → Bool} (h : (iniPart (cutLine i k ok)
    .currFirst key value stack w).2.eep.writes ≤ i) :
    iniPart (cutLine i k ok) .currFirst key value stack w = iniPart workingLine .currFirst key value stack w := by
  have hline : ∀ n, n < i → cutLine i k ok n = workingLine n := fun n hn => if_pos hn
  unfold iniPart sourceFile at h ⊢
  generalize fileOf w.lastEntry.lastFile = curr at h ⊢
  generalize fileOf (otherFile w.lastEntry.lastFile) = next at h ⊢
  have hi : Reads (dliFile (cutLine i k ok) curr) fun w' => ¬ w'.eep.writes ≤ i := by
    apply dliFile_reads
    intro w1 w₂ heep _ hw
    rw [heep]
    exact hw
  have ho : Follows (dliFile (cutLine i k ok) next) (dliFile workingLine next).write fun w' => ¬ w'.eep.writes ≤ i := by
    refine ⟨dliFile_preserves _ _ fun w1 w₂ ho hw hle => hw (Nat.le_trans ho.writes hle), fun w' bs => ?_⟩
    exact or_iff_not_imp_left.mpr fun hw => dliFile_write_agrees hline bs (not_not.mp hw)
  rw [← dliFile_with_write (cutLine i k ok) workingLine curr, ← dliFile_with_write (cutLine i k ok) workingLine next]
  exact (iniSetString_tracks ho hi _ dliSection key (some value) stack (toggled w)).2.resolve_left (not_not_intro h)

variable {w₂ : Dli}

/-- **The table** is updated by one write to the device. -/
theorem fatUpdate_spec (line : ℕ → WriteOutcome) (hl : w.HasFile)
    (he : w₂.lastEntry = (toggled w).lastEntry) : ∃ w', fatUpdate line w₂ = ((line w₂.eep.writes).ok, w') ∧
      w'.eep.mem = fatCut { w with eep := w₂.eep } (line w₂.eep.writes).stored ∧
      w'.lastEntry = entryOf (w.lastEntry.counter + 1) (otherFile w.lastEntry.lastFile) := by
  have hn : (toggled w).lastEntry.lastFile.toNat ≤ 1 := by
    show (otherFile w.lastEntry.lastFile).toNat ≤ 1
    obtain hl | hl := hl <;> rw [hl] <;> decide
  obtain ⟨w', hw, -, heep⟩ := fatWrite_spec line
    { (toggled w).lastEntry with counter := (toggled w).lastEntry.counter + 1 } w₂ hn
  refine ⟨{ w' with lastEntry := entryOf (w.lastEntry.counter + 1) (otherFile w.lastEntry.lastFile) }, ?_, ?_, rfl⟩
  · simp only [fatUpdate, he, hw]
    rfl
  · rw [heep]
    rfl

theorem KeptBeside.fatSlot (h : KeptBeside (fileOf q) w w₂) (n : ℕ) (hn : n ≤ 1) :
    Bertos.fatSlot w₂.eep.mem n = Bertos.fatSlot w.eep.mem n := by
  apply Mem.read_congr
  intro a h1 h2
  apply h.mem
  apply areas_disjoint (f := .fat)
  · simp only [fileOf]
    split <;> decide
  · omega
  · simp only [DliFile.bytes, DliFile.count, fatEntrySize, fatSize, eepromBlkSize] at h2 ⊢
    omega

theorem areaData_fatCut (h : w.HasFile) (k : ℕ) (q : UInt16) :
    areaData (fatCut w k) (fileOf q) = areaData w.eep.mem (fileOf q) := by
  have hq : (otherFile w.lastEntry.lastFile).toNat ≤ 1 := by
    obtain h | h := h <;> rw [h] <;> decide
  have hbytes : ((entryOf (w.lastEntry.counter + 1) (otherFile w.lastEntry.lastFile)).bytes.take k).length ≤
      fatEntrySize := by
    rw [length_take]
    exact Nat.min_le_right _ _
  have haddr : DliFile.fat.addr + 1 * fatEntrySize + fatEntrySize ≤ (fileOf q).addr := by
    simp only [fileOf]
    split <;> decide
  apply Mem.read_write_of_disjoint
  have := Nat.mul_le_mul_right fatEntrySize hq
  omega

theorem fatCut_full {k : ℕ} (hk : fatEntrySize ≤ k) : fatCut w k = fatCut w fatEntrySize := by
  rw [fatCut, fatCut, take_of_length_le (by exact hk),
    take_of_length_le (Nat.le_of_eq (FatEntry.length_bytes _))]

theorem fatCut_zero : fatCut w 0 = w.eep.mem := by simp [fatCut]

theorem Synced.kept (h : Synced w) (hf : KeptBeside (fileOf q) (toggled w) w₂) : Synced { w with eep := w₂.eep } := by
  apply h.congr
  · intro n hn
    exact hf.fatSlot n hn
  · rfl
  · rfl

/-- A completed call leaves the table in agreement with `last_entry`. -/
theorem Synced.set (h : Synced w) (hk : IniKey key) {order : ArgOrder} {w' : Dli}
    (hset : dliSet workingLine order key value stack w = some (true, w')) : Synced w' := by
  rw [dliSet_eq h.lastFile hk] at hset
  have hframe := iniPart_frame workingLine order key value stack w
  generalize iniPart workingLine order key value stack w = r at hset hframe
  obtain ⟨_ | _, w₂⟩ := r
  · cases hset
  · obtain ⟨w3, hupd, hm, he⟩ := fatUpdate_spec workingLine h.lastFile hframe.lastEntry
    rw [hupd] at hset
    cases hset
    exact (h.kept hframe).written (hm.trans (fatCut_full (show fatEntrySize ≤ eepromBlkSize by decide))) he

/-- **In every run the table agrees with `last_entry`**. -/
theorem DliRun.synced (h : DliRun w) : Synced w := by
  induction h with
  | start line writes =>
    obtain ⟨heep, he⟩ := dliInit_spec line ⟨fun _ => 0xFF, writes⟩
    have hslot : ∀ n, Bertos.fatSlot (fun _ => 0xFF) n = erasedSlot := fun _ => by
      simp [Bertos.fatSlot, erasedSlot, Mem.read, map_const']
    have hsel : Bertos.selected (fun _ => 0xFF) = fatDefault zeroEntry := by
      rfl
    rw [hsel] at he
    apply Synced.fresh
    · rw [he]; rfl
    · rw [he]; rfl
    · rw [heep]; exact hslot 0
    · rw [heep]; exact hslot 1
  | restart line _ ih =>
    obtain ⟨heep, he⟩ := dliInit_spec line _
    exact ih.congr (fun n _ => by rw [heep]) (by rw [he]; exact ih.selected.1) (by rw [he]; exact ih.selected.2)
  | set _ hk hset ih => exact ih.set hk hset

/-- A memory in which a restart finds the file in use unchanged. -/
def FoundOld (w : Dli) (m : ℕ → UInt8) : Prop :=
  (selected m).lastFile = w.lastEntry.lastFile ∧
    areaData m (fileOf w.lastEntry.lastFile) = areaData w.eep.mem (fileOf w.lastEntry.lastFile)

/-- A memory in which a restart finds the file that a completed call writes. -/
def FoundNew (w : Dli) (key value : List UInt8) (stack : ℕ → UInt8) (m : ℕ → UInt8) : Prop :=
  ∃ w', dliSet workingLine .currFirst key value stack w = some (true, w') ∧ (selected m).lastFile =
    w'.lastEntry.lastFile ∧ (w'.lastEntry.lastFile = 0 ∨ w'.lastEntry.lastFile = 1) ∧
    areaData m (fileOf w'.lastEntry.lastFile) = areaData w'.eep.mem (fileOf w'.lastEntry.lastFile)

theorem fileOf_ne (h : w.HasFile) :
    fileOf w.lastEntry.lastFile ≠ fileOf (otherFile w.lastEntry.lastFile) := by
  obtain h | h := h <;> rw [h] <;> decide

theorem Synced.foundOld (h : Synced w) (hf : KeptBeside (fileOf (otherFile w.lastEntry.lastFile)) (toggled w) w₂) :
    FoundOld w w₂.eep.mem :=
  ⟨(h.kept hf).selected.2, areaData_congr (fileOf_ne h.lastFile) hf.mem⟩

/-- While the table is written, a restart finds the old file or the new one. -/
theorem Synced.foundOldOrNew (h : Synced w) (hk : IniKey key)
    (hpart : iniPart workingLine .currFirst key value stack w = (true, w₂)) (k : ℕ) :
    FoundOld w (fatCut { w with eep := w₂.eep } k) ∨ FoundNew w key value stack
      (fatCut { w with eep := w₂.eep } k) := by
  have hf := iniPart_frame workingLine .currFirst key value stack w
  rw [hpart] at hf
  have hs := h.kept hf
  have hdata := fun q => areaData_fatCut hs.lastFile k q
  by_cases hold : (Bertos.selected (fatCut { w with eep := w₂.eep } k)).lastFile = w.lastEntry.lastFile
  · left
    exact ⟨hold, (hdata _).trans (areaData_congr (fileOf_ne h.lastFile) hf.mem)⟩
  · right
    have hnew : (Bertos.selected (fatCut { w with eep := w₂.eep } k)).lastFile = otherFile w.lastEntry.lastFile :=
      eq_otherFile h.lastFile (hs.torn k) hold
    obtain ⟨w3, hupd, hm, he⟩ := fatUpdate_spec workingLine h.lastFile hf.lastEntry
    have hfile : w3.lastEntry.lastFile = otherFile w.lastEntry.lastFile := by rw [he]; rfl
    refine ⟨w3, ?_, ?_, ?_, ?_⟩
    · rw [dliSet_eq h.lastFile hk, hpart, hupd]
      rfl
    · rw [hfile]
      exact hnew
    · rw [hfile, ← hnew]
      exact hs.torn k
    · rw [hdata, hm, areaData_fatCut hs.lastFile]

/-- **One call**, cut anywhere: a restart finds the old file or the new one. -/
theorem Synced.cut (h : Synced w) (hk : IniKey key) (value : List UInt8) (stack : ℕ → UInt8) (i k : ℕ) (ok : ℕ → Bool) :
    ∃ b w', dliSet (cutLine i k ok) .currFirst key value stack w = some (b, w') ∧
      (FoundOld w w'.eep.mem ∨ FoundNew w key value stack w'.eep.mem) := by
  have hf := iniPart_frame (cutLine i k ok) .currFirst key value stack w
  have ha : (iniPart (cutLine i k ok) .currFirst key value stack w).2.eep.writes ≤ i → _ := iniPart_agrees
  rw [dliSet_eq h.lastFile hk]
  generalize iniPart (cutLine i k ok) .currFirst key value stack w = r at hf ha ⊢
  obtain ⟨_ | _, w₂⟩ := r
  · exact ⟨false, w₂, rfl, .inl (h.foundOld hf)⟩
  · obtain ⟨w3, hupd, hm, -⟩ := fatUpdate_spec (cutLine i k ok) h.lastFile hf.lastEntry
    refine ⟨_, w3, by rw [if_pos rfl, hupd], ?_⟩
    rw [hm]
    by_cases hi : w₂.eep.writes ≤ i
    · exact h.foundOldOrNew hk (ha hi).symm _
    · have hstored : (cutLine i k ok w₂.eep.writes).stored = 0 := by
        rw [cutLine, if_neg (by omega), if_neg (by omega)]
      have hold : FoundOld w w₂.eep.mem := h.foundOld hf
      rw [hstored, fatCut_zero]
      exact .inl hold

/-- **Changing a key is atomic**: after any number of completed calls from an erased EEPROM, wherever one more call is
cut, a restart selects a file that holds what the selected file held before, or what the completed call writes. -/
theorem dliSet_atomic (hw : DliRun w) (hk : IniKey key) (value : List UInt8) (stack : ℕ → UInt8) (i k : ℕ)
    (ok : ℕ → Bool) (line : ℕ → WriteOutcome) :
    ∃ b w' before after, dliSet (cutLine i k ok) .currFirst key value stack w = some (b, w') ∧
      currIni (dliInit line w.eep) = some before ∧ currIni (dliInit line w'.eep) = some after ∧
      (areaData w'.eep.mem after = areaData w.eep.mem before ∨
        ∃ w'', dliSet workingLine .currFirst key value stack w = some (true, w'') ∧ currIni w'' = some after ∧
          areaData w'.eep.mem after = areaData w''.eep.mem after) := by
  have h := hw.synced
  have hrestart : ∀ d : Eeprom, (Bertos.selected d.mem).lastFile = 0 ∨ (Bertos.selected d.mem).lastFile = 1 →
      currIni (dliInit line d) = some (fileOf (Bertos.selected d.mem).lastFile) := by
    intro d hd
    rw [← (dliInit_spec line d).2] at hd ⊢
    exact currIni_eq hd
  have hbefore : currIni (dliInit line w.eep) = some (fileOf w.lastEntry.lastFile) := by
    rw [hrestart _ (by rw [h.selected.2]; exact h.lastFile), h.selected.2]
  obtain ⟨b, w', hset, hold | ⟨w'', hset', hsel, hl, hdata⟩⟩ := h.cut hk value stack i k ok
  · refine ⟨b, w', fileOf w.lastEntry.lastFile, fileOf w.lastEntry.lastFile, hset, hbefore, ?_, .inl hold.2⟩
    rw [hrestart _ (by rw [hold.1]; exact h.lastFile), hold.1]
  · refine ⟨b, w', fileOf w.lastEntry.lastFile, fileOf w''.lastEntry.lastFile, hset, hbefore, ?_,
      .inr ⟨w'', hset', currIni_eq hl, hdata⟩⟩
    rw [hrestart _ (by rw [hsel]; exact hl), hsel]

theorem dliSet_atomic_first : ∃ b w' before after,
    dliSet (cutLine 64 7 fun _ => true) .currFirst [65] [66] (fun _ => 0) (dliInit workingLine ⟨fun _ => 0xFF, 0⟩) =
      some (b, w') ∧ currIni (dliInit workingLine (dliInit workingLine ⟨fun _ => 0xFF, 0⟩).eep) = some before ∧
      currIni (dliInit workingLine w'.eep) = some after ∧
      (areaData w'.eep.mem after = areaData (dliInit workingLine ⟨fun _ => 0xFF, 0⟩).eep.mem before ∨
        ∃ w'', dliSet workingLine .currFirst [65] [66] (fun _ => 0) (dliInit workingLine ⟨fun _ => 0xFF, 0⟩) =
          some (true, w'') ∧ currIni w'' = some after ∧ areaData w'.eep.mem after = areaData w''.eep.mem after) :=
  dliSet_atomic (.start workingLine 0) (by decide) [66] (fun _ => 0) 64 7 (fun _ => true) workingLine

end Call

end Bertos
