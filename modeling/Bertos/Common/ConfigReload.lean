import Bertos.Common.ConfigFailure

/-!
# A value live and after a restart

The command `dli_set` hands the text to the function of the entry; after a restart `config_load` hands it the text that
`dli_get` reads back, at most 31 characters of a line of at most 63, without the blanks in front (`readBack`). The
variable is the same exactly if this text stands for the same value (`reloaded_eq_live_iff`); a string of 35 characters
loses its end (`long_string_reloads_cut`).
-/

namespace Bertos

open List Mem Nat

/-- The text that is found in the line of a key. -/
def lineValue (key value : List UInt8) : List UInt8 :=
  ((value.takeWhile fun c => !isEol c).take (iniMaxLineLen - 2 - key.length)).dropWhile isspace

/-- The text that `dli_get` finds in the line of a key, for the buffer of `config_load`. -/
def readBack (key value : List UInt8) : List UInt8 := (lineValue key value).take (maxVal - 1)

/-- The text that `config_load` converts after `dli_set`. A text in the boot area is read as it is; if it fills the
buffer there is no terminator. -/
def reloadText (key value : List UInt8) : List UInt8 :=
  if IniKey key then readBack key value else value.take maxVal

/-! ## The new line -/

section Line

variable {name key value : List UInt8}

theorem IsName.not_eol (h : IsName key) : ∀ c ∈ key, isEol c = false := by
  intro c hc
  obtain ⟨-, hcr, hlf, -⟩ := nameChar_facts c (h.chars c hc)
  simp [isEol, hcr, hlf]

/-- What the reader gets of the first line: its buffer cuts the value, not the key. -/
theorem first_assignment (hk : IsName key) (value tail : List UInt8) :
    ((assignment key value ++ chLf :: tail).takeWhile fun c => !isEol c).take (iniMaxLineLen - 1) =
      assignment key ((value.takeWhile fun c => !isEol c).take (iniMaxLineLen - 2 - key.length)) := by
  have hvalue : (value ++ chLf :: tail).takeWhile (fun c => !isEol c) = value.takeWhile fun c => !isEol c := by
    induction value with
    | nil => rfl
    | cons c value ih =>
      by_cases hc : isEol c = true
      · simp [hc]
      · simp only [cons_append, takeWhile_cons, hc, Bool.not_false, if_true, ih]
  have hline : (assignment key value ++ chLf :: tail).takeWhile (fun c => !isEol c) =
      assignment key (value.takeWhile fun c => !isEol c) := by
    rw [assignment, append_assoc, takeWhile_append_of_pos fun c hc => by simp [hk.not_eol c hc]]
    rw [cons_append, takeWhile_cons, if_pos (by decide), hvalue, assignment]
  have hlen := hk.short
  rw [hline, assignment, take_append, take_of_length_le (by simp only [iniMaxLineLen]; omega)]
  congr 1
  have hroom : iniMaxLineLen - 1 - key.length = iniMaxLineLen - 2 - key.length + 1 := by
    simp only [iniMaxLineLen]
    omega
  rw [hroom, take_succ_cons]

/-- **What is read back** from the file that `ini_setString` writes, whatever follows the new line. -/
theorem iniValue_edited (hn : IsName name) (hk : IsName key) {f : List UInt8} {ls : List RawLine} {e : Edit}
    (hr : RawLines f ls) (hls : ∀ l ∈ ls, Tame l.text) (hloc : Located name key ls e) (hrest : e.old ++ e.after ≠ [])
    (hv : ∀ c ∈ value, c ≠ 0) (hp : Printable value) (tail defaultValue : List UInt8) (size : ℕ) (stack : ℕ → UInt8) :
    iniValue (f.take (rawLen e.before) ++ (newText e.sectionFound name key value ++ tail)) name key defaultValue size
      stack = (true, (lineValue key value).take (size - 1)) := by
  have happ := hloc.append
  rw [append_assoc] at happ
  have hmem : ∀ l ∈ e.before, Tame l.text := fun l hl => hls l (by rw [happ]; simp [hl])
  have hkeyText : keyText key value ++ tail = assignment key value ++ chLf :: tail := by
    simp [keyText, hk.printable.fmtString_eq, hp.fmtString_eq, assignment]
  obtain ⟨n, C, hfirst⟩ := rawLines_first (assignment key value ++ chLf :: tail)
  rw [first_assignment hk] at hfirst
  generalize hv' : (value.takeWhile fun c => !isEol c).take (iniMaxLineLen - 2 - key.length) = v at hfirst
  have htext : TextLine v := by
    intro c hc
    rw [← hv'] at hc
    have hmem := mem_of_mem_take hc
    exact ⟨hv c (takeWhile_subset _ hmem), by simpa [isEol] using mem_takeWhile_imp hmem⟩
  have htame : Tame (assignment key v) := by
    refine (hk.iniLine_assignment htext ?_).tame
    have := hk.short
    simp only [assignment, length_append, length_cons, ← hv', length_take, iniMaxLineLen]
    omega
  have hvalue : textValue (assignment key v) = lineValue key value := by
    rw [hk.textValue_eq, ← hv', lineValue]
  have heq : chEq ∈ assignment key v := by simp [assignment]
  rw [happ] at hr
  rw [← hvalue]
  have hnew : ∀ {A M : List RawLine} {s : RawLine}, RawLines (f.take (rawLen e.before) ++
      (newText e.sectionFound name key value ++ tail)) (A ++ s :: (M ++ ⟨assignment key v, n⟩ :: C)) →
      (∀ a ∈ A, Tame a.text ∧ a.text ≠ header name) → Tame s.text ∧ s.text = header name →
      (∀ m ∈ M, Passed key m.text) → iniValue (f.take (rawLen e.before) ++
        (newText e.sectionFound name key value ++ tail))
        name key defaultValue size stack = (true, (textValue (assignment key v)).take (size - 1)) :=
    fun hraw hA hs hM => iniValue_found hn hraw hA hs hM htame (hk.textKey_assignment v) heq defaultValue size stack
  -- the line comes in a new section, in the place of the old one, or at the end of its section
  cases hloc with
  | @noSection P R _ hP _ _ =>
    have hraw := hr.append hrest (hfirst.withSection hn)
    rw [← hkeyText, ← append_assoc (sectionText name), append_cons] at hraw
    refine hnew (M := []) hraw (fun a ha => ?_) ⟨hn.iniLine_header.tame, rfl⟩ (by simp)
    rcases mem_append.mp ha with ha | ha
    · exact ⟨hmem a ha, hP a ha⟩
    · rw [mem_singleton.mp ha]
      exact ⟨tame_nil, (cons_ne_nil _ _).symm⟩
  | @found A M R s l _ hA hs hM hl | @noKey A M B R s _ hA hs hM _ _ _ =>
    have hraw := hr.append hrest hfirst
    rw [← hkeyText, append_assoc] at hraw
    refine hnew hraw (fun a ha => ⟨hmem a (by simp [ha]), hA a ha⟩) ⟨hmem s (by simp), hs⟩ fun m hm => ?_
    exact ⟨hmem m (by simp [hm]), (hM m hm).1, (hM m hm).2⟩

end Line

/-! ## A restart -/

section Restart

variable {w w' : Dli} {key value : List UInt8} {ls : List RawLine} {stack : ℕ → UInt8} {order : ArgOrder}

/-- The file, up to the end of the new line, has room for it. -/
def LineFits (key value : List UInt8) (ls : List RawLine) : Prop :=
  rawLen (locate dliSection key ls).before +
    (newText (locate dliSection key ls).sectionFound dliSection key value).length ≤ iniSize

theorem Synced.restart (h : Synced w) (line : ℕ → WriteOutcome) :
    (dliInit line w.eep).lastEntry.lastFile = w.lastEntry.lastFile ∧ currData (dliInit line w.eep) = currData w := by
  obtain ⟨he, hl⟩ := dliInit_spec line w.eep
  have hfile : (dliInit line w.eep).lastEntry.lastFile = w.lastEntry.lastFile := by rw [hl, h.selected.2]
  exact ⟨hfile, by rw [currData, currData, he, hfile]⟩

theorem length_areaData (m : ℕ → UInt8) (p : UInt16) : (areaData m (fileOf p)).length = iniSize := by
  rw [areaData, length_read, fileOf]
  split <;> rfl

section
variable (hl : w.HasFile) (hwf : WellFormed (currData w)) (hr : RawLines (currData w) ls) (hk : IsName key)
  (hini : IniKey key)
include hl hwf hr hk hini

/-- `dli_set` reports success exactly when the new line fits, and then it is stored. -/
theorem dliSet_reported (hp : Printable value) (stack : ℕ → UInt8) :
    ∃ w', dliSet workingLine .currFirst key value stack w =
        some (decide ((locate dliSection key ls).Reported dliSection key value iniSize), w') ∧
      ((locate dliSection key ls).Reported dliSection key value iniSize → currData w' =
        ((locate dliSection key ls).text dliSection key value (currData w) ++ padding iniSize).take iniSize) := by
  have hpair : FilePair _ _ _ _ fun _ => () := dliFile_pair (fileOf_ne hl) (fun _ _ _ => rfl) (fun _ _ _ => rfl)
  have hr' : RawLines (dliFileSt (fileOf w.lastEntry.lastFile) (toggled w)).data ls := hr
  obtain ⟨w2, hpart, -, -, hdata⟩ := iniSetString_spec hpair isName_dliSection hk.printable hp (fun _ => hk.nonempty)
    hr'
    (hwf.readable hr).tame (hwf.raw hr).2 stack
  have hsize : (dliFileSt (fileOf (otherFile w.lastEntry.lastFile)) (toggled w)).data.length = iniSize :=
    length_areaData _ _
  rw [hsize] at hpart hdata
  have hpart' : iniPart workingLine .currFirst key value stack w = _ := hpart
  have hframe := iniPart_frame workingLine .currFirst key value stack w
  rw [dliSet_eq hl hini]
  rw [hpart'] at hframe ⊢
  by_cases hrep : (locate dliSection key ls).Reported dliSection key value iniSize
  · obtain ⟨w3, hupd, hm, hle⟩ := fatUpdate_spec workingLine hl hframe.lastEntry
    have hcurr : currData w3 = areaData w2.eep.mem (fileOf (otherFile w.lastEntry.lastFile)) := by
      rw [currData, hm, hle]
      exact areaData_fatCut (w := { w with eep := w2.eep }) hl _ _
    refine ⟨w3, by rw [decide_eq_true hrep, hupd]; rfl, fun _ => ?_⟩
    rw [hcurr]
    exact hdata hrep
  · exact ⟨w2, by rw [decide_eq_false hrep, if_neg Bool.false_ne_true], fun h => absurd h hrep⟩

/-- **What a restart reads** after a call that succeeded. -/
theorem dliSet_stores (hv : ∀ c ∈ value, c ≠ 0) (hp : Printable value) (hfit : LineFits key value ls)
    (hset : dliSet workingLine .currFirst key value stack w = some (true, w')) (defaultValue : List UInt8) (size : ℕ)
    (stack' : ℕ → UInt8) : iniValue (currData w') dliSection key defaultValue size stack' =
      (true, (lineValue key value).take (size - 1)) := by
  have hread := hwf.readable hr
  have hloc := locate_located dliSection key ls
  have hafter := hloc.after_ne_nil (fun _ => hk.nonempty) hr.ne_nil (hwf.raw hr).2
  obtain ⟨w1, hspec, hdata⟩ := dliSet_reported hl hwf hr hk hini hp stack
  obtain ⟨htrue, rfl⟩ := Prod.mk.inj (Option.some.inj (hspec.symm.trans hset))
  have hkeep : ((currData w).take (rawLen (locate dliSection key ls).before) ++
      newText (locate dliSection key ls).sectionFound dliSection key value).length ≤ iniSize := by
    rw [length_append, length_take, min_eq_left (hloc.before_le hr)]
    exact hfit
  rw [hdata (of_decide_eq_true htrue), Edit.text, append_assoc, take_append, take_of_length_le hkeep,
    append_assoc]
  exact iniValue_edited isName_dliSection hk hr hread.tame hloc (by simp [hafter]) hv hp _ defaultValue size stack'

end

def bootStart (key : List UInt8) : ℕ := if key = serialnoKey then 0 else macAddrStrLen + 1

theorem boot_keys (hk : ¬ IniKey key) : key = serialnoKey ∨ key = ipKey :=
  not_not.mp fun h => hk (not_or.mp h)

theorem dliSet_boot (hk : ¬ IniKey key) (line : ℕ → WriteOutcome) (order : ArgOrder) (value : List UInt8)
    (stack : ℕ → UInt8) (w : Dli) : dliSet line order key value stack w =
      some (bootSet line (bootStart key) value w) := by
  rcases boot_keys hk with rfl | rfl <;> rfl

theorem dliGet_boot (hk : ¬ IniKey key) (line : ℕ → WriteOutcome) (defaultVal : List UInt8) (len : ℕ)
    (stack : ℕ → UInt8) (w : Dli) :
    dliGet line key defaultVal len stack w = some (bootGet line (bootStart key) defaultVal len w) := by
  rcases boot_keys hk with rfl | rfl <;> rfl

theorem bootStart_le (key : List UInt8) : bootStart key ≤ 18 := by
  unfold bootStart macAddrStrLen
  split <;> omega

theorem bootGet_eq (line : ℕ → WriteOutcome) (start : ℕ) (defaultVal : List UInt8) (len : ℕ) (w : Dli) :
    ∃ w', bootGet line start defaultVal len w = (if min bootSize len ≤ bootSize - start then
        (true, Mem.read w.eep.mem (DliFile.boot.addr + start) (min bootSize len)) else (false, defaultVal.take len),
          w') ∧
      w'.eep = w.eep ∧ w'.lastEntry = w.lastEntry := by
  have hread := dliFile_read line .boot (w.setPos .boot start) (min bootSize len)
  have hpos : (w.setPos .boot start).pos .boot = start := by simp [Dli.setPos]
  rw [hpos, show DliFile.boot.bytes = bootSize from rfl] at hread
  have hseek : (dliFile line .boot).seek w start = w.setPos .boot start := rfl
  refine ⟨(w.setPos .boot start).setPos .boot (start + min (min bootSize len) (bootSize - start)), ?_, rfl, rfl⟩
  simp only [bootGet, hseek, hread, length_read]
  by_cases hfit : min bootSize len ≤ bootSize - start
  · rw [if_pos hfit, min_eq_left hfit, if_pos rfl]
    rfl
  · rw [if_neg hfit, if_neg (by omega)]

theorem bootGet_maxVal (line : ℕ → WriteOutcome) (key defaultVal : List UInt8) (w : Dli) :
    ∃ w', bootGet line (bootStart key) defaultVal maxVal w =
        ((true, Mem.read w.eep.mem (DliFile.boot.addr + bootStart key) maxVal), w') ∧
      w'.eep = w.eep ∧ w'.lastEntry = w.lastEntry := by
  have hs := bootStart_le key
  obtain ⟨w', hget, hkeep⟩ := bootGet_eq line (bootStart key) defaultVal maxVal w
  rw [show min bootSize maxVal = 32 from rfl, show bootSize = 1024 from rfl, if_pos (by omega)] at hget
  exact ⟨w', hget, hkeep⟩

/-- A boot parameter is stored with its terminator at its offset. -/
theorem bootSet_eq {start : ℕ} (hs : start ≤ 18) (hlen : value.length ≤ dliValMaxLen) (w : Dli) :
    ∃ w', bootSet workingLine start value w = (true, w') ∧ Outside .boot w w' ∧
      w'.eep.mem = Mem.write w.eep.mem (DliFile.boot.addr + start) (value ++ [0]) := by
  have hfit : (value ++ [0]).length ≤ DliFile.boot.bytes - start := by
    simp only [length_append, length_singleton, dliValMaxLen, DliFile.bytes, DliFile.count, eepromBlkSize,
      bootSize] at hlen ⊢
    omega
  obtain ⟨k, hk⟩ := kfileblockWriteLoop_working DliFile.boot.start DliFile.boot.count
    (DliFile.boot.count * eepromBlkSize) (value ++ [0]).length (value ++ [0]) start w.eep (le_refl _)
  have hroom : eepromBlkSize * DliFile.boot.count - start = DliFile.boot.bytes - start := rfl
  rw [hroom, min_eq_left hfit, take_of_length_le hfit] at hk
  have hfb : (w.setPos .boot start).fileBlock .boot =
      ⟨eepromArea DliFile.boot.start DliFile.boot.count, start, DliFile.boot.count * eepromBlkSize⟩ := by
    rfl
  have hwrite : (dliFile workingLine .boot).write (w.setPos .boot start) (value ++ [0]) = ((value ++ [0]).length,
      { (w.setPos .boot start).setPos .boot (start + (value ++ [0]).length) with
        eep := ⟨write w.eep.mem (DliFile.boot.addr + start) (value ++ [0]), k⟩ }) := by
    have heep : (w.setPos .boot start).eep = w.eep := rfl
    simp only [dliFile, kfileblockWrite, hfb, heep, hk]
    rfl
  have hseek := outside_setPos .boot w start
  have hout := outside_write workingLine .boot (w.setPos .boot start) (value ++ [0])
  have hset : (dliFile workingLine .boot).seek w start = w.setPos .boot start := rfl
  refine ⟨((dliFile workingLine .boot).write (w.setPos .boot start) (value ++ [0])).2, ?_, ?_, ?_⟩
  · simp only [bootSet, hset, hwrite, length_append, length_singleton, beq_self_eq_true]
  · exact ⟨fun a ha => (hout.mem a ha).trans (hseek.mem a ha), fun g hg => (hout.pos g hg).trans (hseek.pos g hg),
      hout.lastEntry.trans hseek.lastEntry, le_trans hseek.writes hout.writes⟩
  · rw [hwrite]

theorem cstr_read_boot {m : ℕ → UInt8} {a : ℕ} (n : ℕ) (hv : ∀ c ∈ value, c ≠ 0)
    (h : Mem.read m a (value ++ [0]).length = value ++ [0]) : cstr (Mem.read m a n) = value.take n := by
  have hread : read m a ((value ++ [0]).length + n) = value ++ 0 :: read m (a + (value ++ [0]).length) n := by
    rw [read_add, h]
    simp
  rw [← take_read m a _ n (Nat.le_add_left ..), cstr_take, hread, cstr_append hv]

theorem readBack_nonul (hv : ∀ c ∈ value, c ≠ 0) : ∀ c ∈ readBack key value, c ≠ 0 := by
  intro c hc
  have hmem := mem_of_mem_take ((dropWhile_sublist _).mem (mem_of_mem_take hc))
  exact hv c ((takeWhile_sublist _).mem hmem)

/-- After a call that succeeded the table agrees with `last_entry`. -/
theorem Synced.set_any (hw : Synced w) (hlen : value.length ≤ dliValMaxLen)
    (hset : dliSet workingLine order key value stack w = some (true, w')) : Synced w' := by
  by_cases hini : IniKey key
  · exact hw.set hini hset
  · obtain ⟨w1, hboot, hout, -⟩ := bootSet_eq (bootStart_le key) hlen w
    rw [dliSet_boot hini, hboot] at hset
    cases hset
    refine hw.congr (fun n hn => ?_) (by rw [hout.lastEntry]) (by rw [hout.lastEntry])
    refine read_congr fun a h1 h2 => hout.mem a ?_
    refine areas_disjoint (f := .fat) (by decide) (le_trans (le_add_right _ _) h1) (lt_of_lt_of_le h2 ?_)
    simp only [fatEntrySize, DliFile.bytes, DliFile.count, fatSize, eepromBlkSize]
    omega

/-- **What `config_load` converts** in a later state of the same store. -/
theorem dliGet_reload (hw : Synced w) (hwf : WellFormed (currData w)) (hr : RawLines (currData w) ls) (hk : IsName key)
    (hv : ∀ c ∈ value, c ≠ 0) (hlen : value.length ≤ dliValMaxLen) (horder : IniKey key → order = .currFirst)
    (hfit : IniKey key → LineFits key value ls) (hset : dliSet workingLine order key value stack w = some (true, w'))
      {v : Dli} (heep : v.eep = w'.eep)
    (hfile : v.lastEntry.lastFile = w'.lastEntry.lastFile) (line : ℕ → WriteOutcome) (defaultVal : List UInt8)
    (stack' : ℕ → UInt8) : ∃ b input v', dliGet line key defaultVal maxVal stack' v = some ((b, input), v') ∧
      cstr input = reloadText key value := by
  by_cases hini : IniKey key
  · have hsync := hw.set hini hset
    rw [horder hini] at hset
    have hstores := dliSet_stores hw.lastFile hwf hr hk hini hv (le_trans hlen (by decide)) (hfit hini) hset defaultVal
      maxVal stack'
    have hcurr : currData v = currData w' := by rw [currData, currData, heep, hfile]
    obtain ⟨v', hget, -⟩ := dliGet_value line (by rw [Dli.HasFile, hfile]; exact hsync.lastFile)
      ⟨key, defaultVal, maxVal, stack'⟩ hini
    rw [DliRequest.value, hcurr, hstores] at hget
    refine ⟨true, readBack key value, v', hget, ?_⟩
    rw [cstr_eq (readBack_nonul hv), reloadText, if_pos hini]
  · obtain ⟨w1, hboot, -, hmem⟩ := bootSet_eq (bootStart_le key) hlen w
    rw [dliSet_boot hini, hboot] at hset
    cases hset
    obtain ⟨v', hget, -⟩ := bootGet_maxVal line key defaultVal v
    refine ⟨true, _, v', by rw [dliGet_boot hini, hget], ?_⟩
    rw [heep, hmem, cstr_read_boot maxVal hv (read_write_self _ _ _), reloadText, if_neg hini]

end Restart

/-! ## The entries -/

section Entries

variable {F : Type}

/-- An integer, boolean, boolean-array or string entry. -/
inductive ConfigEntry.Standard : ConfigEntry F → Prop
  | int (name : List UInt8) (lo hi : ℤ) (defaultVal : List UInt8) : Standard (confInt name lo hi defaultVal)
  | bool (name defaultVal : List UInt8) : Standard (confBool name defaultVal)
  | boolArray (name : List UInt8) (size : ℕ) (defaultVal : List UInt8) : Standard (confBoolArray name size defaultVal)
  | string (name : List UInt8) (size : ℕ) (defaultVal : List UInt8) : Standard (confString name size defaultVal)

variable {e : ConfigEntry F} {value : List UInt8} {var var₀ : ConfigVar F}

/-- A standard setter keeps a first part of the text. -/
theorem ConfigEntry.Standard.val_eq_take (h : e.Standard) (value : List UInt8) (var : ConfigVar F) :
    ∃ n, (e.setp value false var).val = value.take n := by
  have hall : ∃ n, value = value.take n := ⟨value.length, by simp⟩
  cases h with
  | int name lo hi defaultVal =>
    simp only [confInt, configSetInt]
    split_ifs <;> exact hall
  | bool name defaultVal =>
    simp only [confBool, configSetBool]
    split
    · exact hall
    · exact hall
  | boolArray name size defaultVal =>
    simp only [confBoolArray, configSetBoolArray]
    split
    · exact hall
    · split <;> exact ⟨_, rfl⟩
  | string name size defaultVal =>
    simp only [confString, configSetString]
    split <;> exact hall

/-- **A text that was accepted** stands for the same value when it is converted again, also in the cut form. -/
theorem ConfigEntry.Standard.convert_again (h : e.Standard) (hret : (e.setp value false var).ret ≠ .convErr)
    (var₀ : ConfigVar F) :
    (e.setp (e.setp value false var).val true var₀).var = (e.setp value false var).var := by
  cases h with
  | int name lo hi defaultVal =>
    simp only [confInt, configSetInt] at hret ⊢
    by_cases herr : (strtol value).failed = true
    · rw [if_pos herr] at hret
      exact absurd rfl hret
    · by_cases hclamp : (strtol value).conv ≠ minmax lo (strtol value).conv hi
      · simp only [if_neg herr, if_pos hclamp]
      · simp only [if_neg herr, if_neg hclamp]
  | bool name defaultVal =>
    simp only [confBool, configSetBool] at hret ⊢
    cases hdec : decodeBool value with
    | some b => simp only [hdec]
    | none => simp [hdec] at hret
  | boolArray name size defaultVal =>
    simp only [confBoolArray, configSetBoolArray] at hret ⊢
    by_cases hlen : value.length < size * 2 - 1
    · simp [if_pos hlen] at hret
    · simp only [if_neg hlen] at hret ⊢
      generalize hdec : decodeBoolArray (size * 2 - 1) (value.take (size * 2 - 1)) = r at hret ⊢
      obtain ⟨_ | _, bs⟩ := r
      · simp at hret
      · have hlen' : ¬ (value.take (size * 2 - 1)).length < size * 2 - 1 := by
          rw [length_take]
          omega
        simp only [if_neg hlen', take_take, min_self, hdec]
  | string name size defaultVal =>
    simp only [confString, configSetString] at hret ⊢
    by_cases hlen : value.length = 0
    · rw [if_pos hlen] at hret
      exact absurd rfl hret
    · simp only [if_neg hlen]

theorem setEntry_first {key : List UInt8} {pre : ConfigTable F} (hpre : ∀ x ∈ pre, x.1.matches key = false)
    (he : e.matches key = true) (value : List UInt8) (var : ConfigVar F) (post : ConfigTable F) :
    setEntry key value (pre ++ (e, var) :: post) =
      (some ((e.setp value false var).ret, (e.setp value false var).val), pre ++
        (e, (e.setp value false var).var) :: post) := by
  induction pre with
  | nil => rw [nil_append, setEntry, if_pos he, nil_append]
  | cons x pre ih =>
    obtain ⟨e', var'⟩ := x
    have hx : e'.matches key = false := hpre (e', var') (by simp)
    rw [cons_append, setEntry, if_neg (by rw [hx]; exact Bool.false_ne_true),
      ih fun y hy => hpre y (by simp [hy])]
    rfl

theorem ConfigEntry.eq_of_matches (hname : IsName e.name) {key : List UInt8} (h : e.matches key = true) :
    key = e.name := by
  have hlen := hname.short
  have heq : e.name.take cfgNameMax = key.take cfgNameMax := of_decide_eq_true h
  rw [take_of_length_le (by simp only [cfgNameMax]; omega)] at heq
  have hkey : key.length ≤ cfgNameMax := by
    have hl := congrArg length heq
    rw [length_take] at hl
    simp only [cfgNameMax] at hl ⊢
    omega
  rw [heq, take_of_length_le hkey]

section
variable {w : Dli} (hl : w.HasFile) (line : ℕ → WriteOutcome)
include hl line

theorem loadEntry_keeps (stack : ℕ → UInt8) (e : ConfigEntry F) (var : ConfigVar F) :
    ∃ var' w', loadEntry line stack e var w = some (var', w') ∧ w'.eep = w.eep ∧ w'.lastEntry = w.lastEntry := by
  have hget : ∃ r w', dliGet line e.name e.defaultVal maxVal stack w = some (r, w') ∧ w'.eep = w.eep ∧
      w'.lastEntry = w.lastEntry := by
    by_cases hini : IniKey e.name
    · obtain ⟨w', hget, hkeep⟩ := dliGet_value line hl ⟨e.name, e.defaultVal, maxVal, stack⟩ hini
      exact ⟨_, w', hget, hkeep⟩
    · obtain ⟨w', hget, hkeep⟩ := bootGet_maxVal line e.name e.defaultVal w
      exact ⟨_, w', by rw [dliGet_boot hini, hget], hkeep⟩
  obtain ⟨⟨b, input⟩, w', hget, hkeep⟩ := hget
  exact ⟨_, w', by rw [loadEntry, hget], hkeep⟩

theorem configLoad_returns (stack : ℕ → UInt8) (tbl : ConfigTable F) :
    ∃ tbl' w', configLoad line stack tbl w = some (tbl', w') := by
  induction tbl generalizing w with
  | nil => exact ⟨[], w, rfl⟩
  | cons x tbl ih =>
    obtain ⟨e, var⟩ := x
    obtain ⟨var', w1, hload, -, hle⟩ := loadEntry_keeps hl line stack e var
    obtain ⟨tbl', w', hrest⟩ := ih (hl.of_eq hle)
    exact ⟨_, w', by rw [configLoad, hload]; dsimp only; rw [hrest]⟩

/-- `config_load` reaches every entry, with the store as it was. -/
theorem configLoad_at (stack : ℕ → UInt8) (e : ConfigEntry F) (var : ConfigVar F) (pre post : ConfigTable F) :
    ∃ pre' var' post' w' v v', configLoad line stack (pre ++ (e, var) :: post) w =
        some (pre' ++ (e, var') :: post', w') ∧ pre'.length = pre.length ∧ v.eep = w.eep ∧ v.lastEntry = w.lastEntry ∧
      loadEntry line stack e var v = some (var', v') := by
  induction pre generalizing w with
  | nil =>
    obtain ⟨var', v', hload, -, hle⟩ := loadEntry_keeps hl line stack e var
    obtain ⟨post', w', hrest⟩ := configLoad_returns (hl.of_eq hle) line stack post
    refine ⟨[], var', post', w', w, v', ?_, rfl, rfl, rfl, hload⟩
    rw [nil_append, configLoad, hload]
    dsimp only
    rw [hrest]
    rfl
  | cons x pre ih =>
    obtain ⟨e1, var1⟩ := x
    obtain ⟨var2, w1, hload, heep, hle⟩ := loadEntry_keeps hl line stack e1 var1
    obtain ⟨pre', var', post', w', v, v', hrest, hlen, hve, hvl, hat⟩ := ih (hl.of_eq hle)
    refine ⟨(e1, var2) :: pre', var', post', w', v, v', ?_, by simp [hlen], hve.trans heep, hvl.trans hle, hat⟩
    rw [cons_append, configLoad, hload]
    dsimp only
    rw [hrest]
    rfl

end

theorem cmdDliSet_accepted {order : ArgOrder} {w w' : Dli} {keyArg valArg : List UInt8} {stack : ℕ → UInt8}
    {tbl tbl' : ConfigTable F} {reply : DliReply} {ret : SetPRetVals} {val : List UInt8} {tbl1 : ConfigTable F}
    (hcmd : cmdDliSet workingLine order keyArg valArg stack tbl w = some (reply, tbl', w'))
    (hacc : reply = .ok ∨ reply = .error "Value clamped!")
    (hentry : setEntry (cstr keyArg) (cstr valArg) tbl = (some (ret, val), tbl1)) :
    valArg.length ≤ dliValMaxLen ∧ ret ≠ .convErr ∧ tbl' = tbl1 ∧
      dliSet workingLine order (cstr keyArg) val stack w = some (true, w') := by
  have hfailed : ∀ msg, msg ≠ "Value clamped!" → reply ≠ .error msg := by
    rintro msg hmsg rfl
    rcases hacc with hacc | hacc
    · cases hacc
    · exact hmsg (DliReply.error.inj hacc)
  unfold cmdDliSet at hcmd
  split at hcmd
  · cases hcmd
    exact absurd rfl (hfailed _ (by decide))
  · next hlen =>
    rw [hentry] at hcmd
    obtain ⟨⟨rep, w1⟩, hstore, heq⟩ := Option.map_eq_some_iff.mp hcmd
    cases heq
    refine ⟨Nat.le_of_not_lt hlen, ?_⟩
    cases ret with
    | convErr =>
      cases hstore
      exact absurd rfl (hfailed _ (by decide))
    | ok | okClamped =>
      refine ⟨by decide, rfl, ?_⟩
      simp only [storeEntry] at hstore
      rcases hset : dliSet workingLine order (cstr keyArg) val stack w with _ | ⟨_ | _, w2⟩
      · rw [hset] at hstore
        cases hstore
      · rw [hset] at hstore
        cases hstore
        exact absurd rfl (hfailed _ (by decide))
      · rw [hset] at hstore
        cases hstore
        rfl

/-- The text that is read back stands for the value that the variable has. -/
def ReadsBack (e : ConfigEntry F) (value : List UInt8) (var var₀ : ConfigVar F) : Prop :=
  (e.setp (reloadText e.name (e.setp value false var).val) true var₀).var = (e.setp value false var).var

/-- A text without line ends and without a blank in front that fits in the buffer of `config_load`. -/
structure PlainText (value : List UInt8) : Prop where
  short : value.length < maxVal
  line : ∀ c ∈ value, isEol c = false
  first : ∀ c ∈ value.head?, isspace c = false

/-- A plain value is read back whole. -/
theorem lineValue_plain {key value : List UInt8} (hk : IsName key) (h : PlainText value) : lineValue key value =
    value := by
  have hlen := h.short
  have hkey := hk.short
  have hline : value.takeWhile (fun c => !isEol c) = value := by
    rw [takeWhile_eq_self_iff]
    intro c hc
    simp [h.line c hc]
  have hfirst : value.dropWhile isspace = value := by
    cases value with
    | nil => rfl
    | cons c value => rw [dropWhile_cons_of_neg (by simp [h.first c rfl])]
  simp only [maxVal, cfgNameMax] at hlen
  have hroom : value.take (iniMaxLineLen - 2 - key.length) = value :=
    take_of_length_le (by simp only [iniMaxLineLen]; omega)
  rw [lineValue, hline, hroom, hfirst]

theorem reloadText_plain {key value : List UInt8} (hk : IsName key) (h : PlainText value) :
    reloadText key value = value := by
  unfold reloadText
  split
  · rw [readBack, lineValue_plain hk h, take_of_length_le (le_sub_one_of_lt h.short)]
  · exact take_of_length_le (le_of_lt h.short)

end Entries

/-! ## Live and reloaded -/

section Reload

variable {F : Type} {w w' : Dli} {ls : List RawLine} {e : ConfigEntry F} {var : ConfigVar F}
    {pre post tbl' : ConfigTable F}
  {keyArg valArg : List UInt8} {stack : ℕ → UInt8} {reply : DliReply} {order : ArgOrder}

variable (hw : Synced w) (hwf : WellFormed (currData w)) (hr : RawLines (currData w) ls)
  (he : e.Standard) (hname : IsName e.name) (hpre : ∀ x ∈ pre, x.1.matches (cstr keyArg) = false)
  (hmatch : e.matches (cstr keyArg) = true)
  (horder : IniKey e.name → order = .currFirst)
  (hfit : IniKey e.name → LineFits e.name (e.setp (cstr valArg) false var).val ls)
  (hcmd : cmdDliSet workingLine order keyArg valArg stack (pre ++ (e, var) :: post) w = some (reply, tbl', w'))
  (hacc : reply = .ok ∨ reply = .error "Value clamped!") (line : ℕ → WriteOutcome) (stack' : ℕ → UInt8)
  (pre₀ post₀ : ConfigTable F) (var₀ : ConfigVar F)
include hw hwf hr he hname hpre hmatch horder hfit hcmd hacc

theorem config_reloads :
    (e.setp (cstr valArg) false var).ret ≠ .convErr ∧ tbl' = pre ++ (e, (e.setp (cstr valArg) false var).var) :: post ∧
      ∃ pre1 post1 w1, configLoad line stack' (pre₀ ++ (e, var₀) :: post₀) (dliInit line w'.eep) = some (pre1 ++
        (e, (e.setp (reloadText e.name (e.setp (cstr valArg) false var).val) true var₀).var) :: post1, w1) ∧
      pre1.length = pre₀.length := by
  obtain ⟨hlen, hret, rfl, hset⟩ := cmdDliSet_accepted hcmd hacc (setEntry_first hpre hmatch (cstr valArg) var post)
  rw [ConfigEntry.eq_of_matches hname hmatch] at hset
  -- the text that is stored is a part of the argument
  obtain ⟨n, hval⟩ := he.val_eq_take (cstr valArg) var
  have hnonul : ∀ c ∈ (e.setp (cstr valArg) false var).val, c ≠ 0 := by
    intro c hc
    rw [hval] at hc
    simpa using mem_takeWhile_imp (mem_of_mem_take hc)
  have hshort : (e.setp (cstr valArg) false var).val.length ≤ dliValMaxLen := by
    have hcstr : (cstr valArg).length ≤ valArg.length := (takeWhile_sublist _).length_le
    rw [hval, length_take]
    omega
  have hsync := hw.set_any hshort hset
  obtain ⟨hfile, -⟩ := hsync.restart line
  have heep := (dliInit_spec line w'.eep).1
  obtain ⟨pre1, var1, post1, w1, v, v', hload, hpos, hve, hvl, hat⟩ :=
    configLoad_at (by rw [Dli.HasFile, hfile]; exact hsync.lastFile) line stack' e var₀ pre₀ post₀
  obtain ⟨b, input, v'', hget, hinput⟩ := dliGet_reload hw hwf hr hname hnonul hshort horder hfit hset (hve.trans heep)
    (by rw [hvl, hfile]) line e.defaultVal stack'
  rw [loadEntry, hget] at hat
  rw [← hinput, (Prod.mk.inj (Option.some.inj hat)).1]
  exact ⟨hret, rfl, pre1, post1, w1, hload, hpos⟩

/-- **Live and after a restart.** The DLI file is well formed, the entry is the one that the command finds, its name is
short enough for a key of an ini file, `currIni()` is evaluated first, and the file has room for the new line. Whatever
the command accepts, the variable that `config_load` sets after a restart is the one the command left exactly if the
text that is read back stands for the same value; and it does so if the text is plain. -/
theorem reloaded_eq_live_iff :
    ∃ live reloaded pre₁ post₁ w₁, tbl' = pre ++ (e, live) :: post ∧
      configLoad line stack' (pre₀ ++ (e, var₀) :: post₀) (dliInit line w'.eep) =
        some (pre₁ ++ (e, reloaded) :: post₁, w₁) ∧ pre₁.length = pre₀.length ∧
      (reloaded = live ↔ ReadsBack e (cstr valArg) var var₀) ∧
      (PlainText (e.setp (cstr valArg) false var).val → reloaded = live) := by
  obtain ⟨hret, rfl, pre₁, post₁, w₁, hload, hpos⟩ :=
    config_reloads hw hwf hr he hname hpre hmatch horder hfit hcmd hacc line stack' pre₀ post₀ var₀
  refine ⟨_, _, pre₁, post₁, w₁, rfl, hload, hpos, Iff.rfl, fun hplain => ?_⟩
  rw [reloadText_plain hname hplain]
  exact he.convert_again hret var₀

end Reload

/-! ### A formatted device -/

/-- The table is erased, and both files are empty. -/
def formattedMem (a : ℕ) : UInt8 := if a < DliFile.ini0.addr then 0xFF else chLf

def formatted : Dli := dliInit workingLine ⟨formattedMem, 0⟩

theorem formatted_eep : formatted.eep.mem = formattedMem := by
  rw [formatted, (dliInit_spec workingLine _).1]

theorem formatted_synced : Synced formatted := by
  have hslot : ∀ n, n ≤ 1 → fatSlot formattedMem n = erasedSlot := by
    intro n hn
    obtain rfl | rfl := le_one_iff_eq_zero_or_eq_one.mp hn <;> decide
  refine .fresh (by rfl) (by rfl) ?_ ?_
  · rw [formatted_eep, hslot 0 (by omega)]
  · rw [formatted_eep, hslot 1 (by omega)]

theorem formatted_data : currData formatted = List.replicate iniSize chLf := by
  rw [currData, eq_replicate_iff]
  refine ⟨length_read _ _ _, fun c hc => ?_⟩
  obtain ⟨b, hb, rfl⟩ := mem_map.mp hc
  exact if_neg (not_lt.mpr (mem_range'_1.mp hb).1)

theorem splitLines_lf : ∀ n : ℕ, splitLines (List.replicate n chLf) = List.replicate (n + 1) []
  | 0 => rfl
  | n + 1 => by
    rw [replicate_succ, splitLines, if_pos (.inr rfl), splitLines_lf n, ← replicate_succ]

theorem formatted_wellFormed : WellFormed (currData formatted) := by
  rw [formatted_data]
  constructor
  · intro t ht
    rw [splitLines_lf] at ht
    rw [eq_of_mem_replicate ht]
    exact .inl rfl
  · intro t ht
    rw [splitLines_lf] at ht
    rw [eq_of_mem_replicate (mem_of_getLast? ht)]
    rfl

theorem formatted_lines : RawLines (currData formatted) (lfLines iniSize) := by
  rw [formatted_data]
  exact rawLines_lf iniSize

theorem trimLines_lf (n : ℕ) : trimLines (lfLines n) = [] := by
  rw [trimLines, rdropWhile_eq_nil_iff]
  intro l hl
  rw [text_lfLines hl]
  rfl

theorem locate_lf (name key : List UInt8) (n : ℕ) : locate name key (lfLines n) =
    ⟨false, false, [], [], lfLines n⟩ := by
  have hfirst : (lfLines n).takeWhile (fun l => l.text ≠ header name) = lfLines n := by
    rw [takeWhile_eq_self_iff]
    intro l hl
    rw [decide_eq_true_eq, text_lfLines hl]
    exact (cons_ne_nil _ _).symm
  simp only [locate, hfirst, drop_length, trimLines_lf, length_nil, drop_zero]

section Formatted

variable {key value : List UInt8}

/-- A blank file has room for a key. -/
theorem size_lf (hk : IsName key) (hlen : value.length ≤ dliValMaxLen) :
    (locate dliSection key (lfLines iniSize)).size dliSection key value ≤ iniSize := by
  have hp : Printable value := le_trans hlen (by decide)
  have hshort := hk.short
  have hmax : dliValMaxLen = 128 := rfl
  have hsize : iniSize = 4096 := rfl
  have hsection : (sectionText dliSection).length = 7 := by decide
  have hline : (keyText key value).length = key.length + value.length + 2 := by
    rw [keyText, hk.printable.fmtString_eq, hp.fmtString_eq]
    simp only [length_append, length_singleton]
    omega
  rw [locate_lf, Edit.size, Edit.needed, trimLines_lf, newText, if_neg Bool.false_ne_true, length_append]
  show 0 + _ + 0 ≤ _
  omega

theorem lineFits_lf (hk : IsName key) (hlen : value.length ≤ dliValMaxLen) : LineFits key value (lfLines iniSize) :=
  le_trans (le_add_right _ _) (size_lf hk hlen)

theorem dliSet_lf {w : Dli} (hl : w.HasFile) (hwf : WellFormed (currData w))
    (hr : RawLines (currData w) (lfLines iniSize)) (hk : IsName key) (hini : IniKey key)
    (hlen : value.length ≤ dliValMaxLen) (stack : ℕ → UInt8) :
    ∃ w', dliSet workingLine .currFirst key value stack w = some (true, w') := by
  obtain ⟨w', hset, -⟩ := dliSet_reported hl hwf hr hk hini (le_trans hlen (by decide)) stack
  exact ⟨w', by rw [hset, decide_eq_true (Edit.reported_of_size (size_lf hk hlen))]⟩

/-- A table with one string, of 40 characters. -/
def oneString : ConfigTable Unit := [(confString [107] 40 [], .string [])]

theorem cmdDliSet_oneString {w w' : Dli} {stack : ℕ → UInt8} (hne : value ≠ []) (hv : ∀ c ∈ value, c ≠ 0)
    (hlen : value.length ≤ 40) (hset : dliSet workingLine .currFirst [107] value stack w = some (true, w')) :
    cmdDliSet workingLine .currFirst [107] value stack oneString w =
      some (.ok, [(confString [107] 40 [], .string (strncpy value 40 ++ [0]))], w') := by
  have hkey : cstr [107] = [107] := rfl
  have hcut : ¬ dliValMaxLen < value.length := by
    have hmax : dliValMaxLen = 128 := rfl
    omega
  have hentry : setEntry [107] value oneString =
      (some (.ok, value), [(confString [107] 40 [], .string (strncpy value 40 ++ [0]))]) := by
    have hmatch : (confString (F := Unit) [107] 40 []).matches [107] = true := by decide
    rw [oneString, setEntry, if_pos hmatch]
    simp only [confString, configSetString, length_eq_zero_iff, if_neg hne, if_neg (not_lt.mpr hlen)]
  simp only [cmdDliSet, if_neg hcut, hkey, cstr_eq hv, hentry, storeEntry, hset, Option.map_some, if_true]

theorem cmdDliSet_formatted (hne : value ≠ []) (hv : ∀ c ∈ value, c ≠ 0) (hlen : value.length ≤ 40)
    (stack : ℕ → UInt8) : ∃ w', cmdDliSet workingLine .currFirst [107] value stack oneString formatted =
      some (.ok, [(confString [107] 40 [], .string (strncpy value 40 ++ [0]))], w') := by
  obtain ⟨w', hset⟩ := dliSet_lf formatted_synced.lastFile formatted_wellFormed formatted_lines isName_k (by decide)
    (le_trans hlen (by decide)) stack
  exact ⟨w', cmdDliSet_oneString hne hv hlen hset⟩

end Formatted

theorem reloaded_eq_live_short : ∃ w' live pre₁ post₁ w₁,
    cmdDliSet workingLine .currFirst [107] [97, 98] (fun _ => 0) oneString formatted =
        some (.ok, [(confString [107] 40 [], live)], w') ∧
      configLoad workingLine (fun _ => 0) oneString (dliInit workingLine w'.eep) =
        some (pre₁ ++ (confString [107] 40 [], live) :: post₁, w₁) ∧ pre₁.length = 0 := by
  obtain ⟨w', hcmd⟩ := cmdDliSet_formatted (cons_ne_nil 97 [98]) (by simp) (by decide) fun _ => 0
  have hcmd' : cmdDliSet workingLine .currFirst [107] [97, 98] (fun _ => 0)
    ([] ++ (confString [107] 40 [], .string []) :: []) formatted = _ := hcmd
  have hval : ((confString (F := Unit) [107] 40 []).setp (cstr [97, 98]) false (.string [])).val = [97, 98] := rfl
  obtain ⟨live, reloaded, pre₁, post₁, w₁, htbl, hload, hpos, -, hplain⟩ := reloaded_eq_live_iff formatted_synced
    formatted_wellFormed formatted_lines (.string _ _ _) isName_k (by simp) (by decide)
    (fun _ => rfl) (fun _ => by exact lineFits_lf isName_k (by decide)) hcmd' (.inl rfl) workingLine (fun _ => 0) [] []
    (.string [])
  have hlive : reloaded = live := hplain (by rw [hval]; exact ⟨by decide, by simp [isEol, chCr, chLf],
    fun c hc => by cases hc; rfl⟩)
  subst hlive
  exact ⟨w', reloaded, pre₁, post₁, w₁, by rw [hcmd, htbl]; rfl, hload, hpos⟩

/-- **A text of 35 characters**: the command answers `OK` and the variable has all of them, after a restart it has the
first 31. -/
theorem long_string_reloads_cut : ∃ w' live reloaded pre₁ post₁ w₁,
    cmdDliSet workingLine .currFirst [107] (List.replicate 35 97) (fun _ => 0) oneString formatted =
        some (.ok, [(confString [107] 40 [], live)], w') ∧
      configLoad workingLine (fun _ => 0) oneString (dliInit workingLine w'.eep) =
        some (pre₁ ++ (confString [107] 40 [], reloaded) :: post₁, w₁) ∧ pre₁.length = 0 ∧
      live = .string (List.replicate 35 97 ++ List.replicate 6 0) ∧
      reloaded = .string (List.replicate 31 97 ++ List.replicate 10 0) := by
  obtain ⟨w', hcmd⟩ := cmdDliSet_formatted (show replicate 35 97 ≠ [] by decide) (by simp) (by decide) fun _ => 0
  have hcmd' : cmdDliSet workingLine .currFirst [107] (replicate 35 97) (fun _ => 0)
    ([] ++ (confString [107] 40 [], .string []) :: []) formatted = _ := hcmd
  obtain ⟨-, -, pre₁, post₁, w₁, hload, hpos⟩ := config_reloads formatted_synced formatted_wellFormed formatted_lines
    (.string _ _ _) isName_k (by simp) (by decide)
    (fun _ => rfl) (fun _ => by exact lineFits_lf isName_k (by decide)) hcmd' (.inl rfl) workingLine (fun _ => 0) [] []
    (.string [])
  exact ⟨w', _, _, pre₁, post₁, w₁, hcmd, hload, hpos, by decide, by decide⟩

end Bertos
