import Bertos.Common.Config
import Bertos.Common.DliAtomic
import Bertos.Mware.IniLookup
import Bertos.Mware.IniUpdate

/-!
# When a change of the configuration fails

`nextIni()` switches the current file before `ini_setString` and `fat_update` are known to succeed, and the command
`dli_set` calls the function of the entry before `dli_set` is known to succeed. So after a failure `dli_get` looks in
the other file, and the variable has its new value (`failed_set_leaves_traces`); `failed_set_keeps` says when nothing
changes.
-/

namespace Bertos

open List

theorem isName_dliSection : IsName dliSection := ⟨all_eq_true.mp rfl, by decide, by decide⟩

/-! ## The values of the keys -/

/-- The arguments of `dli_get`, and what is on the stack. -/
structure DliRequest where
  key : List UInt8
  defaultVal : List UInt8
  len : ℕ
  stack : ℕ → UInt8

/-- The answer to a request in a file with this content. -/
def DliRequest.value (r : DliRequest) (data : List UInt8) : Bool × List UInt8 :=
  iniValue data dliSection r.key r.defaultVal r.len r.stack

/-- The answers to calls of `dli_get` one after the other. -/
def dliGets (line : ℕ → WriteOutcome) : List DliRequest → Dli → Option (List (Bool × List UInt8))
  | [], _ => some []
  | r :: rs, w =>
    match dliGet line r.key r.defaultVal r.len r.stack w with
    | none => none
    | some (v, w') => (dliGets line rs w').map (v :: ·)

/-- The content of the file in use, and of the other one. -/
def currData (w : Dli) : List UInt8 := areaData w.eep.mem (fileOf w.lastEntry.lastFile)
def otherData (w : Dli) : List UInt8 := areaData w.eep.mem (fileOf (otherFile w.lastEntry.lastFile))

section Values

variable {line : ℕ → WriteOutcome} {w w' : Dli}

/-- A file of the store reads as its content does, whatever the line does to writes. -/
theorem dliFile_readSim (line : ℕ → WriteOutcome) (f : DliFile) :
    ReadSim (dliFile line f) contentFile fun w s => dliFileSt f w = s := by
  refine ⟨?_, ?_, ?_, ?_⟩
  · rintro w _ rfl n
    have hrest : (dliFileSt f w).rest.take n = Mem.read w.eep.mem (f.addr + w.pos f) (min n (f.bytes - w.pos f)) :=
      Mem.take_drop_read _ _ _ _ _
    rw [dliFile_read]
    refine ⟨hrest.symm, ?_⟩
    simp only [contentFile, hrest]
    simp [dliFileSt, Dli.setPos, FileSt.advance]
  · rintro w _ rfl p
    simp [dliFile, dliFileSt, Dli.setPos, contentFile]
  · rintro w _ rfl
    rfl
  · rintro w _ rfl
    simp [dliFile, dliFileSt, areaData, DliFile.bytes, contentFile, Nat.mul_comm]

/-- **What `dli_get` answers** depends on the content of the file in use. -/
theorem dliGet_value (line : ℕ → WriteOutcome) (hl : w.HasFile)
    (r : DliRequest) (hr : IniKey r.key) :
    ∃ w', dliGet line r.key r.defaultVal r.len r.stack w = some (r.value (currData w), w') ∧ w'.eep = w.eep ∧
      w'.lastEntry = w.lastEntry := by
  have hget := iniGetString_value (dliFile_readSim line (fileOf w.lastEntry.lastFile))
    (fun w' p => by simp [dliFile, dliFileSt, Dli.setPos]) dliSection r.key r.defaultVal r.len r.stack w
  have hkeep := iniGetString_preserves (P := fun w' => w'.eep = w.eep ∧ w'.lastEntry = w.lastEntry)
    (dliFile_reads line (fileOf w.lastEntry.lastFile) fun _ _ he hl hw => ⟨he.trans hw.1, hl.trans hw.2⟩)
    dliSection r.key r.defaultVal r.len r.stack w ⟨rfl, rfl⟩
  refine ⟨_, ?_, hkeep⟩
  simp only [dliGet, if_neg hr.1, if_neg hr.2, currIni_eq hl, DliRequest.value, currData]
  rw [show areaData w.eep.mem (fileOf w.lastEntry.lastFile) = (dliFileSt (fileOf w.lastEntry.lastFile) w).data from rfl,
    ← hget]

/-- Later calls of `dli_get` for ini keys answer as they would have before. -/
def KeepsValues (w w' : Dli) : Prop :=
  ∀ (line : ℕ → WriteOutcome) (rs : List DliRequest), (∀ r ∈ rs, IniKey r.key) → dliGets line rs w' = dliGets line rs w

theorem dliGets_values (hl : w.HasFile) :
    ∀ rs : List DliRequest, (∀ r ∈ rs, IniKey r.key) → dliGets line rs w =
      some (rs.map fun r => r.value (currData w)) := by
  intro rs
  induction rs generalizing w with
  | nil => exact fun _ => rfl
  | cons r rs ih =>
    intro hrs
    obtain ⟨w₁, hget, he, hle⟩ := dliGet_value line hl r (hrs r (by simp))
    have hcurr : currData w₁ = currData w := by rw [currData, currData, he, hle]
    rw [dliGets, hget]
    dsimp only
    rw [ih (hl.of_eq hle) fun r hr => hrs r (by simp [hr]), hcurr]
    rfl

/-- Later calls answer as before exactly if the files in use answer alike. -/
theorem keepsValues_iff (hl : w.HasFile)
    (hl' : w'.HasFile) :
    KeepsValues w w' ↔ ∀ r : DliRequest, IniKey r.key → r.value (currData w') = r.value (currData w) := by
  constructor
  · intro h r hr
    have hone := h workingLine [r] (by simpa using hr)
    rw [dliGets_values hl _ (by simpa using hr), dliGets_values hl' _ (by simpa using hr)] at hone
    simpa using hone
  · intro h line rs hrs
    rw [dliGets_values hl _ hrs, dliGets_values hl' _ hrs, map_congr_left fun r hr => h r (hrs r hr)]

end Values

/-! ## A device that does not answer -/

/-- No write is stored, and none is reported as done. -/
def deadLine : ℕ → WriteOutcome := fun _ => ⟨0, false⟩

section Dead

variable {w : Dli} {key : List UInt8}

/-- Over a dead line a write stores nothing and says so. -/
theorem dliFile_write_dead (f : DliFile) (w : Dli) (bs : List UInt8) :
    ((dliFile deadLine f).write w bs).1 = 0 ∧ ((dliFile deadLine f).write w bs).2.eep.mem = w.eep.mem := by
  have hloop : ∀ fuel, ∃ d, kfileblockWriteLoop (eepromVt deadLine) fuel bs (w.fileBlock f) w.eep =
      (0, w.fileBlock f, d) ∧ d.mem = w.eep.mem := by
    intro fuel
    cases fuel with
    | zero => exact ⟨_, rfl, rfl⟩
    | succ fuel =>
      by_cases hnil : bs = []
      · subst hnil
        exact ⟨_, rfl, rfl⟩
      · by_cases hpos : w.pos f / eepromBlkSize < f.count
        · rw [fileBlock_eq, kfileblockWriteLoop_succ deadLine f.start _ fuel _ bs w.eep hnil hpos]
          exact ⟨_, rfl, by simp [deadLine]⟩
        · exact ⟨w.eep, kfileblockWriteLoop_end deadLine f.start _ _ bs w.eep hpos, rfl⟩
  obtain ⟨d, hd, hm⟩ := hloop bs.length
  simp only [dliFile, kfileblockWrite, hd]
  exact ⟨trivial, hm⟩

theorem bootSet_dead (start : ℕ) (value : List UInt8) (w : Dli) : (bootSet deadLine start value w).1 = false := by
  obtain ⟨hn, -⟩ := dliFile_write_dead .boot ((dliFile deadLine .boot).seek w start) (value ++ [0])
  unfold bootSet
  generalize (dliFile deadLine .boot).write ((dliFile deadLine .boot).seek w start) (value ++ [0]) = r at hn ⊢
  obtain ⟨n, w'⟩ := r
  obtain rfl : n = 0 := hn
  rfl

theorem iniPart_dead (order : ArgOrder) (key value : List UInt8) (stack : ℕ → UInt8) (w : Dli) :
    (iniPart deadLine order key value stack w).2.eep.mem = w.eep.mem := by
  have hreads : ∀ f, Reads (dliFile deadLine f) fun w' => w'.eep.mem = w.eep.mem := fun f =>
    dliFile_reads deadLine f fun _ _ he _ hw => by rw [he]; exact hw
  have hwrites : ∀ f, Preserves (dliFile deadLine f) fun w' => w'.eep.mem = w.eep.mem := fun f =>
    ⟨hreads f, fun w' bs hw => (dliFile_write_dead f w' bs).2.trans hw⟩
  unfold iniPart
  exact iniSetString_preserves (hreads _) (hwrites _) dliSection key (some value) stack (toggled w) rfl

/-- **Every call fails**; for an ini key the other file is the current one afterwards. -/
theorem dliSet_dead (hl : w.HasFile) (order : ArgOrder) (key value : List UInt8)
    (stack : ℕ → UInt8) : ∃ w', dliSet deadLine order key value stack w = some (false, w') ∧
      (IniKey key → w'.eep.mem = w.eep.mem ∧ w'.lastEntry.lastFile = otherFile w.lastEntry.lastFile) := by
  by_cases hk : IniKey key
  · rw [dliSet_eq hl hk]
    have hmem := iniPart_dead order key value stack w
    have hframe := iniPart_frame deadLine order key value stack w
    generalize iniPart deadLine order key value stack w = r at hmem hframe
    obtain ⟨_ | _, w₂⟩ := r
    · exact ⟨w₂, rfl, fun _ => ⟨hmem, by rw [hframe.lastEntry]; rfl⟩⟩
    · obtain ⟨w', hupd, hm, hle⟩ := fatUpdate_spec deadLine hl hframe.lastEntry
      refine ⟨w', by rw [if_pos rfl, hupd]; rfl, fun _ => ⟨?_, by rw [hle]; rfl⟩⟩
      rw [hm]
      exact fatCut_zero.trans hmem
  · have hboot : ∃ start, dliSet deadLine order key value stack w = some (bootSet deadLine start value w) := by
      unfold dliSet
      by_cases hs : key = serialnoKey
      · exact ⟨_, if_pos hs⟩
      · have hi : key = ipKey := by
          by_contra hi
          exact hk ⟨hs, hi⟩
        exact ⟨_, by rw [if_neg hs, if_pos hi]⟩
    obtain ⟨start, hset⟩ := hboot
    refine ⟨(bootSet deadLine start value w).2, ?_, fun h => absurd h hk⟩
    rw [hset, ← bootSet_dead start value w]

end Dead

/-! ## Failures -/

/-- Whatever fails, a call of `dli_set` that returns `false` keeps the values of the ini keys. -/
def SetKeeps (order : ArgOrder) (w : Dli) (key value : List UInt8) : Prop :=
  ∀ (line : ℕ → WriteOutcome) (stack : ℕ → UInt8) (w' : Dli),
    dliSet line order key value stack w = some (false, w') → KeepsValues w w'

def FilesAlike (w : Dli) : Prop :=
  ∀ r : DliRequest, IniKey r.key → r.value (otherData w) = r.value (currData w)

section Failures

variable {F : Type} {order : ArgOrder} {w : Dli} {key value : List UInt8} {tbl : ConfigTable F}
  {keyArg valArg : List UInt8}

def varsOf (tbl : ConfigTable F) : List (ConfigVar F) := tbl.map Prod.snd

/-- Whatever fails, the command keeps the variables if it answers with an error, "Value clamped!" apart. -/
def CmdKeeps (order : ArgOrder) (tbl : ConfigTable F) (w : Dli) (keyArg valArg : List UInt8) : Prop :=
  ∀ (line : ℕ → WriteOutcome) (stack : ℕ → UInt8) (msg : String) (tbl' : ConfigTable F) (w' : Dli),
    cmdDliSet line order keyArg valArg stack tbl w = some (.error msg, tbl', w') → msg ≠ "Value clamped!" →
      varsOf tbl' = varsOf tbl

/-- The text is refused before the function of the entry is called, or this function leaves the variable alone. -/
def SetterIdle (tbl : ConfigTable F) (keyArg valArg : List UInt8) : Prop :=
  dliValMaxLen < valArg.length ∨ varsOf (setEntry (cstr keyArg) (cstr valArg) tbl).2 = varsOf tbl

theorem otherFile_cases (p : UInt16) (hp : p = 0 ∨ p = 1) : otherFile p = 0 ∨ otherFile p = 1 := by
  obtain rfl | rfl := hp
  · exact .inr rfl
  · exact .inl rfl

theorem bootSet_keepsValues (hl : w.HasFile) (line : ℕ → WriteOutcome)
    (start : ℕ) (value : List UInt8) : KeepsValues w (bootSet line start value w).2 := by
  have hout : Outside .boot w (bootSet line start value w).2 := by
    have hseek := outside_setPos .boot w start
    have hwrite := outside_write line .boot (w.setPos .boot start) (value ++ [0])
    exact ⟨fun a ha => (hwrite.mem a ha).trans (hseek.mem a ha), fun g hg => (hwrite.pos g hg).trans (hseek.pos g hg),
      hwrite.lastEntry.trans hseek.lastEntry, Nat.le_trans hseek.writes hwrite.writes⟩
  have hcurr : currData (bootSet line start value w).2 = currData w := by
    unfold currData
    rw [hout.lastEntry]
    refine areaData_congr ?_ hout.mem
    unfold fileOf
    split <;> decide
  refine (keepsValues_iff hl (hl.of_eq hout.lastEntry)).mpr fun r _ => ?_
  rw [hcurr]

theorem setKeeps_of_boot (hl : w.HasFile) (hk : ¬ IniKey key) :
    SetKeeps order w key value := by
  intro line stack w' hset
  unfold dliSet at hset
  split at hset
  · have hkeep := bootSet_keepsValues hl line 0 value
    rwa [Option.some.inj hset] at hkeep
  · split at hset
    · have hkeep := bootSet_keepsValues hl line (macAddrStrLen + 1) value
      rwa [Option.some.inj hset] at hkeep
    · next hs hi => exact absurd ⟨hs, hi⟩ hk

theorem filesAlike_of_setKeeps (hl : w.HasFile) (h : SetKeeps order w key value)
    (hk : IniKey key) : FilesAlike w := by
  obtain ⟨w', hset, hdead⟩ := dliSet_dead hl order key value fun _ => 0
  obtain ⟨hmem, hlast⟩ := hdead hk
  have hkeep := (keepsValues_iff hl (by rw [Dli.HasFile, hlast]; exact otherFile_cases _ hl)).mp (h _ _ w' hset)
  have hdata : currData w' = otherData w := by rw [currData, hmem, hlast, otherData]
  intro r hr
  rw [← hdata]
  exact hkeep r hr

theorem setEntry_none {tbl' : ConfigTable F} (h : setEntry key value tbl = (none, tbl')) : tbl' = tbl := by
  induction tbl generalizing tbl' with
  | nil =>
    cases h
    rfl
  | cons ev tbl ih =>
    unfold setEntry at h
    split at h
    · cases h
    · generalize hr : setEntry key value tbl = r at h
      obtain ⟨x, tbl₁⟩ := r
      cases h
      rw [ih hr]

theorem storeEntry_dead (hl : w.HasFile) (order : ArgOrder) (key val : List UInt8)
    (stack : ℕ → UInt8) (ret : SetPRetVals) :
    ∃ msg w', storeEntry deadLine order key stack w ret val = some (.error msg, w') ∧ msg ≠ "Value clamped!" := by
  obtain ⟨w', hset, -⟩ := dliSet_dead hl order key val stack
  cases ret with
  | convErr => exact ⟨_, w, rfl, by decide⟩
  | ok | okClamped => exact ⟨"Error while writing DLI.", w', by simp only [storeEntry, hset], by decide⟩

theorem cmdKeeps_iff (hl : w.HasFile) :
    CmdKeeps order tbl w keyArg valArg ↔ SetterIdle tbl keyArg valArg := by
  constructor
  · intro h
    by_cases hlong : dliValMaxLen < valArg.length
    · exact .inl hlong
    · refine .inr ?_
      rcases hset : setEntry (cstr keyArg) (cstr valArg) tbl with ⟨_ | ⟨ret, val⟩, tbl'⟩
      · rw [setEntry_none hset]
      · obtain ⟨msg, w', hstore, hmsg⟩ := storeEntry_dead hl order (cstr keyArg) val (fun _ => 0) ret
        refine h deadLine (fun _ => 0) msg tbl' w' ?_ hmsg
        simp only [cmdDliSet, if_neg hlong, hset, hstore, Option.map_some]
  · intro h line stack msg tbl' w' hcmd _
    unfold cmdDliSet at hcmd
    split at hcmd
    · cases hcmd
      rfl
    · next hlong =>
      have hidle := h.resolve_left hlong
      generalize setEntry (cstr keyArg) (cstr valArg) tbl = r at hcmd hidle
      obtain ⟨_ | ⟨ret, val⟩, tbl₁⟩ := r <;>
      · obtain ⟨x, -, hx⟩ := Option.map_eq_some_iff.mp hcmd
        rw [← (Prod.mk.inj (Prod.mk.inj hx).2).1]
        exact hidle

/-- **A change of the configuration that fails.** For a key of the boot area nothing is lost; for an ini key, whatever
the value, nothing can be lost only if the two files answer alike. The command keeps the variables in every failure
exactly if the text is too long or the function of the entry leaves the variable alone. -/
theorem failed_set_keeps (order : ArgOrder) (hl : w.lastEntry.lastFile = 0 ∨ w.lastEntry.lastFile = 1)
    (key value : List UInt8) (tbl : ConfigTable F) (keyArg valArg : List UInt8) :
    (¬ IniKey key → SetKeeps order w key value) ∧ (SetKeeps order w key value → IniKey key → FilesAlike w) ∧
      (CmdKeeps order tbl w keyArg valArg ↔ SetterIdle tbl keyArg valArg) :=
  ⟨setKeeps_of_boot hl, filesAlike_of_setKeeps hl, cmdKeeps_iff hl⟩

end Failures

/-! ### A device with one key -/

/-- The first file of the device holds this text. -/
def factoryText : List UInt8 := ascii "[dli]\nk=1\n".toList

/-- The memory of the device: the text, and line feeds. -/
def factoryMem (a : ℕ) : UInt8 := if a < DliFile.ini0.addr then chLf else factoryText.getD (a - DliFile.ini0.addr) chLf

def factory : Dli := dliInit deadLine ⟨factoryMem, 0⟩

/-- The lines of `n` line feeds. -/
def lfLines (n : ℕ) : List RawLine := List.replicate n ⟨[], 1⟩ ++ [⟨[], 0⟩]

theorem rawLines_lf : ∀ n : ℕ, RawLines (List.replicate n chLf) (lfLines n)
  | 0 => .eof rfl
  | n + 1 => by
    have hline := RawLines.cons (t := []) (Nat.zero_le _) (by simp) (.inr rfl) (rawLines_lf n)
    simpa [replicate_succ, lfLines] using hline

theorem text_lfLines {n : ℕ} {l : RawLine} (hl : l ∈ lfLines n) : l.text = [] := by
  simp only [lfLines, mem_append, mem_replicate, mem_singleton] at hl
  obtain ⟨-, rfl⟩ | rfl := hl <;> rfl

theorem fullLines_lfLines (n : ℕ) : fullLines (lfLines n) = [] :=
  fullLines_blank fun l hl => by rw [text_lfLines hl]; rfl

theorem factory_lastFile : factory.lastEntry.lastFile = 0 := by
  unfold factory
  rw [(dliInit_spec deadLine _).2]
  decide

theorem read_lf {a n : ℕ} (h : DliFile.ini0.addr + factoryText.length ≤ a) :
    Mem.read factoryMem a n = List.replicate n chLf := by
  rw [eq_replicate_iff]
  refine ⟨Mem.length_read _ _ _, fun c hc => ?_⟩
  obtain ⟨b, hb, rfl⟩ := mem_map.mp hc
  have hb' := (mem_range'_1.mp hb).1
  rw [factoryMem, if_neg (by omega), getD_eq_getElem?_getD, getElem?_eq_none (by omega)]
  rfl

theorem factory_ini0 : areaData factoryMem .ini0 = factoryText ++ List.replicate (iniSize - factoryText.length)
    chLf := by
  have hsplit : DliFile.ini0.bytes = factoryText.length + (iniSize - factoryText.length) := by decide
  have htext : Mem.read factoryMem DliFile.ini0.addr factoryText.length = factoryText := by decide
  rw [areaData, hsplit, Mem.read_add, read_lf (Nat.le_refl _), htext]

theorem factory_ini1 : areaData factoryMem .ini1 = List.replicate iniSize chLf :=
  read_lf (by decide)

/-- The key and the value that is to be stored. -/
def factoryRequest : DliRequest := ⟨[107], [], maxVal, fun _ => 0⟩

theorem isName_factoryKey : IsName factoryRequest.key := isName_k

def factoryLines : List RawLine :=
  ⟨ascii "[dli]".toList, 6⟩ :: ⟨ascii "k=1".toList, 4⟩ :: lfLines (iniSize - factoryText.length)

theorem rawLines_factory : RawLines (areaData factoryMem .ini0) factoryLines := by
  have hkey := RawLines.cons (t := ascii "k=1".toList) (c := chLf) (by decide) (by simp [ascii, chCr, chLf]) (.inr rfl)
    (rawLines_lf (iniSize - factoryText.length))
  have hsec := RawLines.cons (t := ascii "[dli]".toList) (c := chLf) (by decide) (by simp [ascii, chCr, chLf])
    (.inr rfl)
    hkey
  have htext : factoryText ++ replicate (iniSize - factoryText.length) chLf = ascii "[dli]".toList ++
      chLf :: (ascii "k=1".toList ++ chLf :: replicate (iniSize - factoryText.length) chLf) := by
    rw [show factoryText = ascii "[dli]".toList ++ chLf :: (ascii "k=1".toList ++ [chLf]) by decide]
    simp
  rw [factory_ini0, htext]
  exact hsec

theorem readable_factory : ∀ l ∈ factoryLines, Tame l.text ∧ (textKey l.text = factoryRequest.key → chEq ∈ l.text) := by
  intro l hl
  rcases mem_cons.mp hl with rfl | hl
  · exact ⟨⟨by simp [ascii], by decide, fun _ => .inl ⟨dliSection, by decide, by decide⟩⟩,
      by decide⟩
  · rcases mem_cons.mp hl with rfl | hl
    · exact ⟨⟨by simp [ascii], by decide, fun _ => .inr (by decide)⟩, by decide⟩
    · rw [text_lfLines hl]
      exact ⟨tame_nil, by decide⟩

theorem fullLines_factory : fullLines factoryLines = [ascii "[dli]".toList, ascii "k=1".toList] := by
  unfold factoryLines
  rw [fullLines_cons_of_not_blank (by decide), fullLines_cons_of_not_blank (by decide), fullLines_lfLines]

theorem factory_value : factoryRequest.value (areaData factoryMem .ini0) = (true, [49]) := by
  have hvalue := iniValue_lookup isName_dliSection isName_factoryKey rawLines_factory
    (fun l hl => (readable_factory l hl).1)
    (fun l hl => (readable_factory l hl).2) factoryRequest.defaultVal factoryRequest.len factoryRequest.stack
  rw [DliRequest.value, hvalue, fullLines_factory]
  decide

theorem factory_other : factoryRequest.value (areaData factoryMem .ini1) = (false, []) := by
  have hvalue := iniValue_lookup isName_dliSection isName_factoryKey (rawLines_lf iniSize)
    (fun l hl => by rw [text_lfLines hl]; exact tame_nil) (fun l hl => by rw [text_lfLines hl]; decide)
    factoryRequest.defaultVal factoryRequest.len factoryRequest.stack
  rw [DliRequest.value, factory_ini1, hvalue, fullLines_lfLines]
  rfl

theorem factory_mem : factory.eep.mem = factoryMem := by rw [factory, (dliInit_spec deadLine _).1]

def factoryTable : ConfigTable Unit := [(confInt factoryRequest.key 0 9 [48], .int 1)]

/-- The theorem at work: on this device a failed change of the serial number keeps every value, one of the key `k` need
not do so, and a failed command that sets `k` to the value it has keeps the variable. -/
theorem failed_set_keeps_factory : SetKeeps .nextFirst factory serialnoKey [50] ∧
    ¬ SetKeeps .currFirst factory factoryRequest.key [50] ∧
    CmdKeeps .currFirst factoryTable factory factoryRequest.key [49] := by
  have hkeeps order key value := failed_set_keeps order (.inl factory_lastFile)
    key value factoryTable factoryRequest.key [49]
  refine ⟨(hkeeps .nextFirst serialnoKey [50]).1 fun h => h.1 rfl, fun h => ?_,
    (hkeeps .currFirst [] []).2.2.mpr (.inr rfl)⟩
  have halike := (hkeeps .currFirst factoryRequest.key [50]).2.1 h (by decide) factoryRequest (by decide)
  rw [otherData, currData, factory_lastFile, factory_mem] at halike
  exact absurd (factory_other.symm.trans (halike.trans factory_value)) (by decide)

/-- **A device that does not answer**: `dli_set` returns `false`, and the key that was there is not found afterwards;
the command answers with an error, and the variable has the new value. -/
theorem failed_set_leaves_traces :
    (∃ w', dliSet deadLine .currFirst factoryRequest.key [50] (fun _ => 0) factory = some (false, w') ∧
      dliGets workingLine [factoryRequest] factory = some [(true, [49])] ∧
      dliGets workingLine [factoryRequest] w' = some [(false, [])]) ∧
    ∃ tbl' w', cmdDliSet deadLine .currFirst factoryRequest.key [50] (fun _ => 0) factoryTable factory =
        some (.error "Error while writing DLI.", tbl', w') ∧
      varsOf factoryTable = [.int 1] ∧ varsOf tbl' = [.int 2] := by
  have hini : IniKey factoryRequest.key := by decide
  obtain ⟨w', hset, hdead⟩ := dliSet_dead (.inl factory_lastFile) .currFirst factoryRequest.key [50] fun _ => 0
  obtain ⟨hmem, hlast⟩ := hdead hini
  rw [factory_lastFile] at hlast
  refine ⟨⟨w', hset, ?_, ?_⟩, [(confInt factoryRequest.key 0 9 [48], .int 2)], w', ?_, rfl, rfl⟩
  · rw [dliGets_values (.inl factory_lastFile) _ (by simpa using hini), currData, factory_lastFile, factory_mem]
    exact congrArg (fun v => some [v]) factory_value
  · rw [dliGets_values (.inr hlast) _ (by simpa using hini), currData, hlast, hmem, factory_mem]
    exact congrArg (fun v => some [v]) factory_other
  · have hkey : cstr factoryRequest.key = factoryRequest.key := rfl
    have hentry : setEntry factoryRequest.key (cstr [50]) factoryTable =
        (some (.ok, [50]), [(confInt factoryRequest.key 0 9 [48], .int 2)]) := rfl
    have hshort : ¬ dliValMaxLen < [(50 : UInt8)].length := by decide
    simp only [cmdDliSet, if_neg hshort, hentry, storeEntry, hkey, hset, Option.map_some]

end Bertos
