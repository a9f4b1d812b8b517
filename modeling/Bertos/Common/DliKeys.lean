import Bertos.Common.ConfigReload

/-!
# The keys of the device life information

The two arguments of `ini_setString` in `dli_set` are the file in use and the other one only if `currIni()` is evaluated
before `nextIni()` (`setArgs_iff`). Setting a key leaves the others alone (`dliSet_keeps_others`), except that the
serial number is written over the IP address if it is longer than a MAC address (`dliSet_serialno_overwrites`).
-/

namespace Bertos

open List Mem DliFile

/-! ## The order of evaluation -/

/-- **Source and destination** are different files, and the source is the one that the table selects, exactly if
`currIni()` is evaluated first and `last_entry` agrees with the table. -/
theorem setArgs_iff (w : Dli) (o : ArgOrder) :
    (∃ src dst w', setArgs w o = (some src, some dst, w') ∧ src ≠ dst ∧
        iniFile (selected w.eep.mem).lastFile = some src) ↔
      o = .currFirst ∧ (selected w.eep.mem).lastFile = w.lastEntry.lastFile ∧
        (w.lastEntry.lastFile = 0 ∨ w.lastEntry.lastFile = 1) := by
  have hinj : ∀ {p q : UInt16} {f : DliFile}, iniFile p = some f → iniFile q = some f → p = q ∧ (p = 0 ∨ p = 1) := by
    intro p q f hp hq
    unfold iniFile at hp hq
    split at hp
    · cases hp
      split at hq <;> cases hq
      exact ⟨rfl, .inl rfl⟩
    · cases hp
      split at hq <;> cases hq
      exact ⟨rfl, .inr rfl⟩
    · cases hp
  cases o with
  | nextFirst =>
    refine iff_of_false ?_ (by simp)
    rintro ⟨src, dst, w', hargs, hne, -⟩
    simp only [setArgs, nextIni, currIni, Prod.mk.injEq] at hargs
    exact hne (Option.some.inj (hargs.1.symm.trans hargs.2.1))
  | currFirst =>
    constructor
    · rintro ⟨src, dst, w', hargs, -, hsel⟩
      simp only [setArgs, nextIni, currIni, Prod.mk.injEq] at hargs
      obtain ⟨hp, hlt⟩ := hinj hargs.1 hsel
      exact ⟨rfl, hp.symm, hlt⟩
    · rintro ⟨-, hsel, hlt⟩
      refine ⟨fileOf w.lastEntry.lastFile, fileOf (otherFile w.lastEntry.lastFile), toggled w, ?_, fileOf_ne hlt, ?_⟩
      · obtain h | h := hlt <;> simp only [setArgs, nextIni, currIni, toggled, h] <;> rfl
      · rw [hsel]
        exact currIni_eq hlt

/-- After a restart of an erased device, with the other order: the file is to be copied onto itself. -/
theorem setArgs_nextFirst : ∃ w',
    setArgs (dliInit workingLine ⟨fun _ => 0xFF, 0⟩) .nextFirst = (some .ini1, some .ini1, w') := by
  have hl : (dliInit workingLine ⟨fun _ => 0xFF, 0⟩).lastEntry.lastFile = 0 := by
    rw [(dliInit_spec workingLine _).2]
    decide +kernel
  exact ⟨_, by simp only [setArgs, nextIni, currIni, hl]; rfl⟩

/-! ## The values of other keys -/

/-- A key of letters, digits and underscores, of any length. -/
structure DliKey (key : List UInt8) : Prop where
  chars : ∀ c ∈ key, nameChar c = true
  nonempty : key ≠ []

/-- What `dli_get` returns, and the string in the buffer. -/
def dliText (key defaultVal : List UInt8) (len : ℕ) (stack : ℕ → UInt8) (w : Dli) : Option (Bool × List UInt8) :=
  (dliGet workingLine key defaultVal len stack w).map fun r => (r.1.1, cstr r.1.2)

def OthersKept (key : List UInt8) (w w' : Dli) : Prop :=
  ∀ key', DliKey key' → key' ≠ key → ∀ defaultVal len stack,
    dliText key' defaultVal len stack w' = dliText key' defaultVal len stack w

/-- The contents of a device: the table agrees with `last_entry`, the file in use is well formed, and the serial number
ends in the bytes before the IP address. -/
structure DliWellFormed (w : Dli) : Prop where
  synced : Synced w
  file : WellFormed (currData w)
  serialno : (0 : UInt8) ∈ Mem.read w.eep.mem DliFile.boot.addr (macAddrStrLen + 1)

def ipText (w : Dli) : List UInt8 := cstr (Mem.read w.eep.mem (DliFile.boot.addr + (macAddrStrLen + 1)) 1006)

section Others

variable {w w' : Dli} {key value : List UInt8} {ls : List RawLine} {stack : ℕ → UInt8} {order : ArgOrder}

/-- A key that is too long for the buffer of the reader is not found. -/
theorem iniValue_long {name data : List UInt8} (hn : IsName name) (hk : 29 < key.length) (hr : RawLines data ls)
    (hread : Readable ls) (defaultValue : List UInt8) (size : ℕ) (stack : ℕ → UInt8) :
    iniValue data name key defaultValue size stack = (false, defaultValue.take (size - 1)) := by
  have hne : (locate name key ls).sectionFound = true → key ≠ [] := fun _ h => by simp [h] at hk
  obtain ⟨line, w', hfind, -⟩ := iniFind_spec contentFile_fixed hn.sectionName (w := ⟨data, 0⟩) hne hr hread.tame stack
  have hloc := locate_located name key ls
  have hold : (locate name key ls).old = [] := by
    generalize locate name key ls = e at hloc
    cases hloc with
    | noSection => rfl
    | noKey => rfl
    | @found A M R s l _ _ _ _ hl =>
      have hlen : (textKey l.text).length ≤ 29 := length_take_le _ _
      rw [hl] at hlen
      omega
  have hseek : contentFile.seek ⟨data, 0⟩ 0 = ⟨data, 0⟩ := rfl
  rw [← hseek] at hfind
  rw [iniValue, iniGetString_eq name key defaultValue size stack hfind, hloc.old_eq, hold]
  rfl

/-- Files with the same lines but for those of one key answer alike for the other keys. -/
theorem iniValue_other (hwf : WellFormed (currData w)) (hr : RawLines (currData w) ls) (hk : IsName key)
    (hv : IsValue key value) (hfit : (locate dliSection key ls).size dliSection key value ≤ iniSize) {data : List UInt8}
    (hdata : data = ((locate dliSection key ls).text dliSection key value (currData w) ++ padding iniSize).take iniSize)
    {key' : List UInt8} (hk' : DliKey key') (hne : key' ≠ key) (defaultVal : List UInt8) (len : ℕ) (stack : ℕ → UInt8) :
    iniValue data dliSection key' defaultVal len stack =
      iniValue (currData w) dliSection key' defaultVal len stack := by
  have hread := hwf.readable hr
  have hloc := locate_located dliSection key ls
  obtain ⟨L, hr', hread', hfull⟩ := rawLines_edited hwf hr isName_dliSection hk hv hloc hfit
  rw [← hdata] at hr'
  by_cases hlong : key'.length ≤ 29
  · have hname : IsName key' := ⟨hk'.chars, hk'.nonempty, hlong⟩
    rw [iniValue_lookup isName_dliSection hname hr' hread'.tame (hread'.eq_of_key hname),
      iniValue_lookup isName_dliSection hname hr hread.tame (hread.eq_of_key hname),
      hfull, hloc.lookup_other hk value hname fun h => hne h.2]
  · rw [iniValue_long isName_dliSection (Nat.lt_of_not_le hlong) hr' hread',
      iniValue_long isName_dliSection (Nat.lt_of_not_le hlong) hr hread]

theorem dliText_ini (hl : w.HasFile) (hk : IniKey key) (defaultVal : List UInt8)
    (len : ℕ) (stack : ℕ → UInt8) : dliText key defaultVal len stack w =
      some ((iniValue (currData w) dliSection key defaultVal len stack).1,
        cstr (iniValue (currData w) dliSection key defaultVal len stack).2) := by
  obtain ⟨w', hget, -⟩ := dliGet_value workingLine hl ⟨key, defaultVal, len, stack⟩ hk
  rw [dliText, hget]
  rfl

theorem dliText_boot (hk : ¬ IniKey key) (defaultVal : List UInt8) (len : ℕ) (stack : ℕ → UInt8) (w : Dli) :
    dliText key defaultVal len stack w = some (if min bootSize len ≤ bootSize - bootStart key then
      (true, cstr (Mem.read w.eep.mem (DliFile.boot.addr + bootStart key) (min bootSize len)))
      else (false, cstr (defaultVal.take len))) := by
  obtain ⟨w', hget, -⟩ := bootGet_eq workingLine (bootStart key) defaultVal len w
  rw [dliText, dliGet_boot hk, hget]
  split <;> rfl

/-- The keys of the boot area keep their values if the strings there do. -/
theorem dliText_boot_congr (hk : ¬ IniKey key) (h : ∀ n, n ≤ bootSize - bootStart key →
      cstr (Mem.read w'.eep.mem (DliFile.boot.addr + bootStart key) n) =
        cstr (Mem.read w.eep.mem (DliFile.boot.addr + bootStart key) n)) (defaultVal : List UInt8) (len : ℕ)
    (stack : ℕ → UInt8) : dliText key defaultVal len stack w' = dliText key defaultVal len stack w := by
  rw [dliText_boot hk, dliText_boot hk]
  split
  · rename_i hfit
    rw [h _ hfit]
  · rfl

theorem cstr_append_of_mem {l : List UInt8} (h : (0 : UInt8) ∈ l) (l' : List UInt8) : cstr (l ++ l') = cstr l := by
  obtain ⟨a, b, rfl⟩ := append_of_mem h
  rw [append_assoc, cons_append, cstr_append_nul, cstr_append_nul]

/-- **An ini key** is set: the boot area and the other ini keys stay as they are. -/
theorem dliSet_ini_kept (hw : DliWellFormed w) (hr : RawLines (currData w) ls) (hini : IniKey key) (hk : IsName key)
    (hv : IsValue key value) (hlen : value.length ≤ dliValMaxLen)
    (hfit : (locate dliSection key ls).size dliSection key value ≤ iniSize)
    (hset : dliSet workingLine .currFirst key value stack w = some (true, w')) : OthersKept key w w' := by
  have hp : Printable value := Nat.le_trans hlen (by decide)
  have hl := hw.synced.lastFile
  obtain ⟨w1, hspec, hdata⟩ := dliSet_reported hw.synced.lastFile hw.file hr hk hini hp stack
  obtain ⟨-, rfl⟩ := Prod.mk.inj (Option.some.inj (hspec.symm.trans hset))
  have hboot : ∀ a < fat.addr, w1.eep.mem a = w.eep.mem a := by
    intro a ha
    have hframe := iniPart_frame workingLine .currFirst key value stack w
    have hcall := Option.some.inj ((dliSet_eq hl hini .currFirst).symm.trans hset)
    generalize iniPart workingLine .currFirst key value stack w = r at hframe hcall
    obtain ⟨w3, hupd, hm, -⟩ := fatUpdate_spec workingLine hl hframe.lastEntry
    have hdone : r.1 = true := by
      by_contra hfalse
      rw [if_neg hfalse] at hcall
      exact hfalse (congrArg Prod.fst hcall)
    rw [if_pos hdone, hupd] at hcall
    obtain rfl : w3 = w1 := congrArg Prod.snd hcall
    rw [hm, fatCut]
    refine (write_of_not_mem _ _ _ (.inl (Nat.lt_of_lt_of_le ha (Nat.le_add_right fat.addr _)))).trans ?_
    refine hframe.mem a (.inl (Nat.lt_of_lt_of_le ha ?_))
    rw [fileOf]
    split <;> decide
  intro key' hk' hne defaultVal len stack'
  by_cases hini' : IniKey key'
  · rw [dliText_ini (hw.synced.set hini hset).lastFile hini', dliText_ini hl hini',
      iniValue_other hw.file hr hk hv hfit (hdata (Edit.reported_of_size hfit)) hk' hne]
  · refine dliText_boot_congr hini' (fun n hn => ?_) _ _ _
    rw [read_congr fun a _ ha => hboot a ?_]
    have hs := bootStart_le key'
    rw [show boot.addr = 0 from rfl] at ha
    rw [show fat.addr = 1024 from rfl]
    rw [show bootSize = 1024 from rfl] at hn
    omega

/-- After a write to the boot area, what counts is the string of the other key there. -/
theorem othersKept_boot (hl : w.HasFile) (hout : Outside .boot w w')
    {other : List UInt8} (hk : DliKey other) (hini : ¬ IniKey other) (hne : other ≠ key)
    (hother : ∀ key', ¬ IniKey key' → key' ≠ key → key' = other) :
    OthersKept key w w' ↔ ∀ n, n ≤ bootSize - bootStart other →
      cstr (Mem.read w'.eep.mem (DliFile.boot.addr + bootStart other) n) =
        cstr (Mem.read w.eep.mem (DliFile.boot.addr + bootStart other) n) := by
  constructor
  · intro h n hn
    have hone := h other hk hne [] n fun _ => 0
    rw [dliText_boot hini, dliText_boot hini, Nat.min_eq_right (by omega), if_pos hn, if_pos hn] at hone
    exact (Prod.mk.inj (Option.some.inj hone)).2
  · intro h key' _ hne' defaultVal len stack
    by_cases hini' : IniKey key'
    · have hcurr : currData w' = currData w := by
        rw [currData, currData, hout.lastEntry]
        refine areaData_congr ?_ hout.mem
        rw [fileOf]
        split <;> decide
      rw [dliText_ini (hl.of_eq hout.lastEntry) hini', dliText_ini hl hini', hcurr]
    · rw [hother key' hini' hne']
      exact dliText_boot_congr hini h _ _ _

/-- **A key of the boot area** is set: the ini keys stay as they are, and so does the serial number. The IP address does
so if the new serial number is short, or happens to end with it. -/
theorem dliSet_boot_kept (hw : DliWellFormed w) (hini : ¬ IniKey key) (hv : ∀ c ∈ value, c ≠ 0)
    (hlen : value.length ≤ dliValMaxLen) (hset : dliSet workingLine order key value stack w = some (true, w')) :
    OthersKept key w w' ↔
      (key = serialnoKey → value.length ≤ macAddrStrLen ∨ ipText w = value.drop (macAddrStrLen + 1)) := by
  obtain ⟨w1, hboot, hout, hmem⟩ := bootSet_eq (bootStart_le key) hlen w
  rw [dliSet_boot hini, hboot] at hset
  cases hset
  have hl := hw.synced.lastFile
  have haddr : boot.addr = 0 := rfl
  have hserial : bootStart serialnoKey = 0 := rfl
  have hip : bootStart ipKey = macAddrStrLen + 1 := rfl
  rcases boot_keys hini with rfl | rfl
  · rw [othersKept_boot hl hout ⟨all_eq_true.mp rfl, by decide⟩ (fun h => h.2 rfl) (by decide)
      fun key' hk hne => (boot_keys hk).resolve_left hne, ipText, haddr, hip, Nat.zero_add]
    rw [haddr, hserial, Nat.add_zero] at hmem
    by_cases hshort : value.length ≤ macAddrStrLen
    · refine iff_of_true (fun n _ => ?_) fun _ => .inl hshort
      rw [hmem, read_write_of_disjoint]
      right
      rw [length_append, length_singleton]
      omega
    -- the new text reaches into the place of the address
    have htext : ∀ n, cstr (read w'.eep.mem (macAddrStrLen + 1) n) = (value.drop (macAddrStrLen + 1)).take n := by
      intro n
      refine cstr_read_boot n (fun c hc => hv c (mem_of_mem_drop hc)) ?_
      have hread := drop_read w'.eep.mem 0 (value ++ [0]).length (macAddrStrLen + 1)
        (by rw [length_append, length_singleton]; omega)
      have hcount : (value.drop (macAddrStrLen + 1) ++ [0]).length = (value ++ [0]).length - (macAddrStrLen + 1) := by
        simp only [length_append, length_drop, length_singleton]
        omega
      rw [hcount, ← drop_append_of_le_length (by omega)]
      rw [hmem, read_write_self, Nat.zero_add] at hread
      rw [hmem, hread]
    have hlen' : value.length ≤ 128 := hlen
    constructor
    · intro h _
      have hone := h 1006 (by decide)
      rw [htext, take_of_length_le (by rw [length_drop]; omega)] at hone
      exact .inr hone.symm
    · intro h n hn
      rw [htext, ← (h rfl).resolve_left hshort, ← cstr_take, take_read _ _ 1006 _ hn]
  · rw [othersKept_boot hl hout ⟨all_eq_true.mp rfl, by decide⟩ (fun h => h.1 rfl) (by decide)
      fun key' hk hne => (boot_keys hk).resolve_right hne, haddr, hserial]
    refine iff_of_true (fun n _ => ?_) fun h => absurd h (by decide)
    rw [haddr, hip, Nat.zero_add] at hmem
    rw [hmem]
    have hser := hw.serialno
    rw [haddr] at hser
    rcases Nat.le_total n (macAddrStrLen + 1) with hn | hn
    · rw [read_write_of_disjoint]
      exact .inl (by omega)
    · obtain ⟨k, rfl⟩ := Nat.exists_eq_add_of_le hn
      have hlow : read (write w.eep.mem (macAddrStrLen + 1) (value ++ [0])) (0 + 0) (macAddrStrLen + 1) =
          read w.eep.mem (0 + 0) (macAddrStrLen + 1) := read_write_of_disjoint _ _ _ (.inl (by omega))
      rw [read_add _ _ _ k, read_add _ _ _ k, hlow, cstr_append_of_mem hser, cstr_append_of_mem hser]

/-- **Setting a key leaves the others alone**, if for a key of the ini file `currIni()` is evaluated first and the
reader and the file have room for the line, and unless a long serial number is written over the IP address. -/
theorem dliSet_keeps_others (hw : DliWellFormed w) (hr : RawLines (currData w) ls) (hkey : DliKey key)
    (htext : TextLine value) (hfirst : ∀ c ∈ value.head?, isspace c = false) (hlen : value.length ≤ dliValMaxLen)
    (hline : IniKey key → order = .currFirst ∧ key.length ≤ 29 ∧ (assignment key value).length < iniMaxLineLen ∧
      (locate dliSection key ls).size dliSection key value ≤ iniSize)
    (hset : dliSet workingLine order key value stack w = some (true, w')) :
    OthersKept key w w' ↔
      (key = serialnoKey → value.length ≤ macAddrStrLen ∨ ipText w = value.drop (macAddrStrLen + 1)) := by
  by_cases hini : IniKey key
  · obtain ⟨rfl, hshort, hroom, hfit⟩ := hline hini
    refine iff_of_true ?_ fun h => absurd h hini.1
    exact dliSet_ini_kept hw hr hini ⟨hkey.chars, hkey.nonempty, hshort⟩ ⟨htext, hfirst, hroom⟩ hlen hfit hset
  · exact dliSet_boot_kept hw hini (fun c hc => (htext c hc).1) hlen hset

end Others

/-! ### A device with an address -/

/-- The formatted device, with no serial number and the address `1`. -/
def addressed : Dli := { formatted with eep := ⟨Mem.write formattedMem 0 (List.replicate 18 0 ++ [49, 0]), 0⟩ }

theorem addressed_beyond {a : ℕ} (h : DliFile.fat.addr ≤ a) (n : ℕ) :
    Mem.read addressed.eep.mem a n = Mem.read formatted.eep.mem a n := by
  rw [formatted_eep]
  show read (write formattedMem 0 _) a n = _
  refine read_write_of_disjoint _ _ _ (.inr (Nat.le_trans ?_ h))
  decide

theorem addressed_data : currData addressed = currData formatted := by
  refine addressed_beyond ?_ _
  rw [fileOf]
  split <;> decide

theorem addressed_lines : RawLines (currData addressed) (lfLines iniSize) := by
  rw [addressed_data]
  exact formatted_lines

theorem addressed_wellFormed : DliWellFormed addressed where
  synced := by
    exact formatted_synced.congr (fun n _ => addressed_beyond (Nat.le_add_right _ _) _) rfl rfl
  file := by
    rw [addressed_data]
    exact formatted_wellFormed
  serialno := by decide

theorem dliSet_addressed (order : ArgOrder) (key value : List UInt8) (hk : ¬ IniKey key)
    (hlen : value.length ≤ dliValMaxLen) :
    ∃ w', dliSet workingLine order key value (fun _ => 0) addressed = some (true, w') := by
  obtain ⟨w', hboot, -⟩ := bootSet_eq (bootStart_le key) hlen addressed
  exact ⟨w', by rw [dliSet_boot hk, hboot]⟩

/-- A new address, and a new key of the ini file. -/
theorem dliSet_keeps_others_addressed :
    (∃ w', dliSet workingLine .nextFirst ipKey [50] (fun _ => 0) addressed = some (true, w') ∧
      OthersKept ipKey addressed w') ∧
    ∃ w', dliSet workingLine .currFirst [107] [50] (fun _ => 0) addressed = some (true, w') ∧
      OthersKept [107] addressed w' := by
  have hchars : ∀ c ∈ [(50 : UInt8)].head?, isspace c = false := fun c hc => by cases hc; rfl
  constructor
  · obtain ⟨w', hset⟩ := dliSet_addressed .nextFirst ipKey [50] (fun h => h.2 rfl) (by decide)
    refine ⟨w', hset, (dliSet_keeps_others addressed_wellFormed addressed_lines ⟨all_eq_true.mp rfl, by decide⟩
      (by decide) hchars (by decide) (fun h => absurd rfl h.2) hset).mpr ?_⟩
    exact fun h => absurd h (by decide)
  · obtain ⟨w', hset⟩ := dliSet_lf addressed_wellFormed.synced.lastFile addressed_wellFormed.file addressed_lines
      isName_k (by decide) (by decide : [(50 : UInt8)].length ≤ dliValMaxLen) fun _ => 0
    refine ⟨w', hset, (dliSet_keeps_others addressed_wellFormed addressed_lines ⟨isName_k.chars, isName_k.nonempty⟩
      (by decide) hchars (by decide) (fun _ => ⟨rfl, by decide, by decide, size_lf isName_k (by decide)⟩) hset).mpr ?_⟩
    exact fun h => absurd h (by decide)

/-- **The flaw**: a serial number of 18 characters leaves an empty IP address. -/
theorem dliSet_serialno_overwrites :
    ∃ w', dliSet workingLine .currFirst serialnoKey (List.replicate 18 97) (fun _ => 0) addressed = some (true, w') ∧
      ¬ OthersKept serialnoKey addressed w' := by
  obtain ⟨w', hset⟩ := dliSet_addressed .currFirst serialnoKey (replicate 18 97) (fun h => h.1 rfl) (by decide)
  refine ⟨w', hset, fun h => ?_⟩
  have hcond := (dliSet_boot_kept addressed_wellFormed (fun h => h.1 rfl) (by simp) (by decide) hset).mp h rfl
  have hip : (ipText addressed).head? = some 49 := by
    rw [ipText, read_succ]
    rfl
  rcases hcond with hcond | hcond
  · exact absurd hcond (by decide)
  · rw [hcond] at hip
    cases hip

end Bertos
