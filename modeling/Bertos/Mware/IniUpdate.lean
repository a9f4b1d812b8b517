import Bertos.Mware.IniSpec

/-!
# What a change does to an ini file

If the new text fits in the output file, `ini_setString` succeeds, the key has its value and every other key keeps its
own (`iniSetString_updates`). `kfile_printf` does not see that a file is full, so a change at the end of the text is
reported although its line has been cut (`iniSetString_cut`); `iniSetString_sound` tells the sizes for which a reported
change is there.
-/

namespace Bertos

open List RawLines

/-! ## The lines of the new file -/

def newRaw (sectionFound : Bool) (name key value : List UInt8) : List RawLine :=
  let line : RawLine := ⟨assignment key value, (assignment key value).length + 1⟩
  if sectionFound then [line] else [⟨[], 1⟩, ⟨header name, (header name).length + 1⟩, line]

section Lines

variable {f g name key value : List UInt8} {ls : List RawLine}

theorem IsName.not_blank_assignment (hk : IsName key) (value : List UInt8) : ¬ Blank (assignment key value) :=
  hk.not_blank (hk.textKey_assignment value)

theorem fullLines_newRaw (hk : IsName key) (sectionFound : Bool) :
    fullLines (newRaw sectionFound name key value) = newLines sectionFound name key value := by
  have ha := fullLines_cons_of_not_blank (l := ⟨assignment key value, (assignment key value).length + 1⟩)
    (hk.not_blank_assignment value) []
  cases sectionFound with
  | true => exact ha
  | false =>
    have hh := fullLines_cons_of_not_blank (l := ⟨header name, (header name).length + 1⟩) (not_blank_header name)
      [⟨assignment key value, (assignment key value).length + 1⟩]
    rw [ha] at hh
    exact hh

theorem IsValue.printable (h : IsValue key value) : Printable value := by
  have := h.short
  simp only [assignment, length_append, length_cons, iniMaxLineLen] at this
  unfold Printable
  omega

theorem IsValue.keyText_eq (hk : IsName key) (h : IsValue key value) :
    keyText key value = assignment key value ++ [chLf] := by
  simp [keyText, hk.printable.fmtString_eq, h.printable.fmtString_eq, assignment]

theorem IsName.sectionText_eq (h : IsName name) : sectionText name = chLf :: (header name ++ [chLf]) := by
  simp [sectionText, h.printable.fmtString_eq, header]

theorem IsName.iniLine_assignment (hk : IsName key) (h : TextLine value)
    (hs : (assignment key value).length < iniMaxLineLen) : IniLine (assignment key value) := by
  refine ⟨?_, hs, .inr ⟨key, value, ?_, rfl⟩⟩
  · intro c hc
    simp only [assignment, mem_append, mem_cons] at hc
    rcases hc with hc | rfl | hc
    · exact hk.text c hc
    · decide
    · exact h c hc
  · obtain ⟨c, cs, rfl⟩ := exists_cons_of_ne_nil hk.nonempty
    simpa using (nameChar_facts c (hk.chars c (by simp))).2.2.2.1

theorem IsValue.iniLine (hk : IsName key) (h : IsValue key value) : IniLine (assignment key value) :=
  hk.iniLine_assignment h.text h.short

theorem IsName.iniLine_header (h : IsName name) : IniLine (header name) := by
  refine ⟨?_, ?_, .inl ⟨name, h.not_close, rfl⟩⟩
  · intro c hc
    simp only [header, cons_append, mem_cons, mem_append, not_mem_nil, or_false] at hc
    rcases hc with rfl | hc | rfl
    · decide
    · exact h.text c hc
    · decide
  · have := h.short
    simp only [header, iniMaxLineLen, length_append, length_cons, length_nil]
    omega

theorem IsValue.line (hk : IsName key) (h : IsValue key value) : ∀ x ∈ assignment key value, x ≠ chCr ∧ x ≠ chLf :=
  fun x hx => ((h.iniLine hk).text x hx).2

theorem IsName.header_line (h : IsName name) : ∀ x ∈ header name, x ≠ chCr ∧ x ≠ chLf :=
  fun x hx => (h.iniLine_header.text x hx).2

theorem IsName.header_length (h : IsName name) : (header name).length ≤ iniMaxLineLen - 1 :=
  h.iniLine_header.tame.short

theorem RawLines.withSection (hn : IsName name) (h : RawLines g ls) :
    RawLines (sectionText name ++ g) (⟨[], 1⟩ :: ⟨header name, (header name).length + 1⟩ :: ls) := by
  have hhead := cons hn.header_length hn.header_line (.inr rfl) h
  have hblank := cons (t := []) (by simp) (by simp) (.inr rfl) hhead
  simpa [hn.sectionText_eq] using hblank

theorem rawLines_newText (hn : IsName name) (hk : IsName key) (hv : IsValue key value) (sectionFound : Bool)
    (h : RawLines g ls) :
    RawLines (newText sectionFound name key value ++ g) (newRaw sectionFound name key value ++ ls) := by
  have hline : RawLines (keyText key value ++ g) (⟨assignment key value, (assignment key value).length + 1⟩ :: ls) := by
    rw [hv.keyText_eq hk, append_assoc]
    exact .cons (Nat.le_sub_one_of_lt hv.short) (hv.line hk) (.inr rfl) h
  cases sectionFound with
  | true => exact hline
  | false => simpa [newText, newRaw] using hline.withSection hn

theorem tame_nil : Tame [] := ⟨by simp, by simp, by simp⟩

theorem newRaw_lines (hn : IsName name) (hk : IsName key) (hv : IsValue key value) (sectionFound : Bool) :
    ∀ l ∈ newRaw sectionFound name key value, Blank l.text ∨ IniLine l.text := by
  have hblank : Blank [] := rfl
  cases sectionFound <;> simp [newRaw, hblank, hn.iniLine_header, hv.iniLine hk]

theorem blank_padding (n : ℕ) : Blank (padding n) := by
  have h : Blank (chLf :: replicate n chSpace) := by
    apply all_eq_true.mpr
    intro c hc
    rcases mem_cons.mp hc with rfl | hc
    · decide
    · rw [eq_of_mem_replicate hc]
      decide
  exact h.take n

theorem Blank.append (hf : Blank f) (hg : Blank g) : Blank (f ++ g) := by
  rw [Blank, all_append, hf, hg]
  rfl

theorem fullLines_edited (hk : IsName key) (e : Edit) {tl : List RawLine} (htl : ∀ l ∈ tl, Blank l.text) :
    fullLines (e.before ++ (newRaw e.sectionFound name key value ++ (trimLines e.after ++ tl))) =
      fullLines e.before ++ newLines e.sectionFound name key value ++ fullLines e.after := by
  obtain ⟨B, hsplit, -, hB⟩ := exists_trimLines e.after
  have hafter : fullLines e.after = fullLines (trimLines e.after) := by
    conv_lhs => rw [hsplit]
    rw [fullLines_append, fullLines_blank hB, append_nil]
  simp only [fullLines_append, fullLines_newRaw hk, fullLines_blank htl, append_nil, hafter, append_assoc]

/-- The lines of the new file, if the text fits: only blank ones come behind those that were there. -/
theorem rawLines_edited (hw : WellFormed f) (hr : RawLines f ls) (hn : IsName name) (hk : IsName key)
    (hv : IsValue key value) {e : Edit} (hloc : Located name key ls e) {size : ℕ}
      (hfit : e.size name key value ≤ size) :
    ∃ L, RawLines ((e.text name key value f ++ padding size).take size) L ∧ Readable L ∧
      fullLines L = fullLines e.before ++ newLines e.sectionFound name key value ++ fullLines e.after := by
  obtain ⟨hlines, hlast⟩ := hw.raw hr
  have hafter := hloc.after_ne_nil (fun _ => hk.nonempty) hr.ne_nil hlast
  have happ := hloc.append
  have hr' := hr
  rw [happ] at hr'
  have hlen : rawLen e.before + rawLen e.old ≤ f.length := by
    rw [← hr'.rawLen_eq, rawLen_append, rawLen_append]
    omega
  -- what lies behind the place
  have hrest := hr'.drop hafter
  have hwrest := hw.drop hr' hafter
  rw [rawLen_append] at hrest hwrest
  obtain ⟨B, hsplit, hdrop, hB⟩ := exists_trimLines e.after
  have hBne : B ≠ [] := by
    rw [← hdrop]
    apply drop_trimLines_ne_nil hafter
    intro l hl
    apply hlast l
    rwa [happ, getLast?_append_of_ne_nil _ hafter]
  rw [hsplit] at hrest
  have hblank : Blank ((f.drop (rawLen e.before + rawLen e.old)).drop e.needed) :=
    WellFormed.blank (hrest.drop hBne) (hwrest.drop hrest hBne) hB
  have hneeded : e.needed ≤ (f.drop (rawLen e.before + rawLen e.old)).length := by
    rw [← hrest.rawLen_eq, rawLen_append]
    exact Nat.le_add_right _ _
  generalize hg : f.drop (rawLen e.before + rawLen e.old) = g at *
  -- the file is a part of the old one, the new text, a part of the old one and blanks
  have hdata : (e.text name key value f ++ padding size).take size = f.take (rawLen e.before) ++
      (newText e.sectionFound name key value ++ (g.take e.needed ++ (g.drop e.needed ++ padding size).take
        (size - e.size name key value))) := by
    have hpre : (f.take (rawLen e.before) ++ newText e.sectionFound name key value ++ g.take e.needed).length =
        e.size name key value := by
      simp only [length_append, length_take, Edit.size]
      omega
    have htext : e.text name key value f ++ padding size = (f.take (rawLen e.before) ++
        newText e.sectionFound name key value ++ g.take e.needed) ++ (g.drop e.needed ++ padding size) := by
      simp only [Edit.text, hg, append_assoc]
      rw [← append_assoc (g.take e.needed), take_append_drop]
    rw [htext, take_append, hpre, take_of_length_le (by rw [hpre]; exact hfit)]
    simp only [append_assoc]
  rw [hdata]
  have htail : Blank ((g.drop e.needed ++ padding size).take (size - e.size name key value)) :=
    (hblank.append (blank_padding size)).take _
  obtain ⟨tl, htl⟩ := RawLines.exists ((g.drop e.needed ++ padding size).take (size - e.size name key value))
  have hblanks := htl.blank htail
  have hbehind := hrest.append hBne htl
  rw [append_assoc] at hr'
  have hnew := hr'.append (by simp [hafter]) (rawLines_newText hn hk hv e.sectionFound hbehind)
  refine ⟨_, hnew, hnew.readable fun l hl => ?_, fullLines_edited hk e hblanks⟩
  rw [happ] at hlines
  simp only [mem_append] at hl hlines
  rcases hl with hl | hl | hl | hl
  · exact hlines l (.inl (.inl hl))
  · exact newRaw_lines hn hk hv _ l hl
  · exact hlines l (.inr ((List.rdropWhile_prefix _ _).subset hl))
  · exact .inl (hblanks l hl)

end Lines

/-! ## A small file -/

/-- A file with the section `a` and in it the key `k` with the value `1`. -/
def smallIni : List UInt8 := header [97] ++ chLf :: (assignment [107] [49] ++ [chLf])

def smallLines : List RawLine := [⟨header [97], 4⟩, ⟨assignment [107] [49], 4⟩, ⟨[], 0⟩]

theorem smallIni_lines : RawLines smallIni smallLines := by
  apply cons (by decide) (by simp [header, chOpen, chClose, chCr, chLf]) (.inr rfl)
  apply cons (by decide) (by simp [assignment, chEq, chCr, chLf]) (.inr rfl)
  exact .eof rfl

theorem smallIni_wellFormed : WellFormed smallIni := by
  have hs : splitLines smallIni = [header [97], assignment [107] [49], []] := by decide
  constructor
  · intro t ht
    rcases mem_cons.mp ht with rfl | ht
    · exact .inr ⟨by decide, by decide, .inl ⟨[97], by decide, rfl⟩⟩
    rcases mem_cons.mp ht with rfl | ht
    · exact .inr ⟨by decide, by decide, .inr ⟨[107], [49], by decide, rfl⟩⟩
    rw [mem_singleton.mp ht]
    exact .inl rfl
  · intro t ht
    rw [hs] at ht
    obtain rfl : [] = t := by simpa using ht
    rfl

theorem isName_a : IsName [97] := ⟨all_eq_true.mp rfl, by decide, by decide⟩

theorem isName_k : IsName [107] := ⟨all_eq_true.mp rfl, by decide, by decide⟩

theorem isValue_22 : IsValue [107] [50, 50] := ⟨by decide, fun c hc => by cases hc; rfl, by decide⟩

/-- The small file, and an empty one of a given size. -/
def smallWorld (size : ℕ) : FileSt × FileSt := (⟨smallIni, 0⟩, ⟨List.replicate size 0, 0⟩)

/-! ## The change -/

section Change

variable {W α : Type} {inp out : KFile W} {ss sd : W → FileSt} {fr : W → α} {name key value : List UInt8}
  {ls : List RawLine} {w : W}

theorem Edit.reported_of_size {e : Edit} {size : ℕ} (h : e.size name key value ≤ size) :
    e.Reported name key value size := by
  simp only [Edit.Reported, Edit.size] at h ⊢
  omega

/-- **A key is set and the others keep their values**: the lines of the input are well formed, the names and the value
are good ones and the text fits in the output. -/
theorem iniSetString_updates (h : FilePair inp out ss sd fr) (hw : WellFormed (ss w).data)
    (hr : RawLines (ss w).data ls) (hn : IsName name) (hk : IsName key) (hv : IsValue key value)
    (hfit : (locate name key ls).size name key value ≤ (sd w).data.length) (stack : ℕ → UInt8) :
    ∃ w', iniSetString inp out name key (some value) stack w = (true, w') ∧
      (∀ defaultValue size stack', (iniGetString out name key defaultValue size stack' w').1 =
        (true, value.take (size - 1))) ∧
      ∀ name' key', IsName name' → IsName key' → ¬ (name' = name ∧ key' = key) → ∀ defaultValue size stack₁ stack₂,
        (iniGetString out name' key' defaultValue size stack₁ w').1 =
          (iniGetString inp name' key' defaultValue size stack₂ w).1 := by
  have hread := hw.readable hr
  have hloc := locate_located name key ls
  have hrep := Edit.reported_of_size hfit
  obtain ⟨w', he, -, -, hdata⟩ := iniSetString_spec h hn hk.printable hv.printable (fun _ => hk.nonempty) hr hread.tame
    (hw.raw hr).2 stack
  obtain ⟨L, hr', hread', hfull⟩ := rawLines_edited hw hr hn hk hv hloc hfit
  rw [← hdata hrep] at hr'
  refine ⟨w', by rw [he, decide_eq_true hrep], ?_, ?_⟩
  · intro defaultValue size stack'
    obtain ⟨w'', hget, -, -⟩ := iniGetString_spec h.dst hn hk hr' hread'.tame (hread'.eq_of_key hk)
      defaultValue size stack'
    rw [hget, hfull, hloc.lookup_new hk hv.first]
    rfl
  · intro name' key' hn' hk' hne defaultValue size stack₁ stack₂
    obtain ⟨w₁, hget₁, -, -⟩ := iniGetString_spec h.dst hn' hk' hr' hread'.tame (hread'.eq_of_key hk') defaultValue size
      stack₁
    obtain ⟨w₂, hget₂, -, -⟩ := iniGetString_spec h.src hn' hk' hr hread.tame (hread.eq_of_key hk') defaultValue size
      stack₂
    rw [hget₁, hget₂, hfull, hloc.lookup_other hk value hk' hne]

/-- The key `k` is set to `22` in a file of 9 bytes. -/
theorem iniSetString_updates_small : ∃ w',
    iniSetString memFst memSnd [97] [107] (some [50, 50]) (fun _ => 0) (smallWorld 9) = (true, w') ∧
      (iniGetString memSnd [97] [107] [] 30 (fun _ => 0) w').1 = (true, [50, 50]) := by
  obtain ⟨w', hset, hget, -⟩ := iniSetString_updates (w := smallWorld 9)
    kfilemem_pair smallIni_wellFormed smallIni_lines
    isName_a isName_k isValue_22 (by decide) fun _ => 0
  exact ⟨w', hset, hget [] 30 fun _ => 0⟩

end Change

/-! ### A line that is cut -/

section Cut

variable {name key value : List UInt8}

theorem RawLines.end {t : List UInt8} (hl : t.length ≤ iniMaxLineLen - 1) (hx : ∀ x ∈ t, x ≠ chCr ∧ x ≠ chLf) :
    RawLines t [⟨t, t.length⟩] := by
  have h := getsText_skip [] _ hl hx
  simp only [append_nil, getsText, Nat.add_zero] at h
  exact .eof h

theorem textKey_take {i : ℕ} (hi : i < key.length) : textKey (key.take i) ≠ key := by
  intro he
  have hl := length_textKey_le (key.take i)
  rw [he, length_take] at hl
  omega

/-- Nothing is found, or only a part of the value. -/
def Missed (value : List UInt8) (found : Option (List UInt8)) : Prop :=
  found = none ∨ ∃ m < value.length, found = some (value.take m)

/-- A line cut anywhere but right after its key misses the value. -/
theorem lookup_cut (name : List UInt8) (hk : IsName key) (hv : IsValue key value) {i : ℕ}
    (hi : i < (assignment key value).length) (hne : i ≠ key.length) :
    (textKey ((assignment key value).take i) = key → chEq ∈ (assignment key value).take i) ∧
      ∀ {before mid : List (List UInt8)}, (∀ u ∈ before, u ≠ header name) →
        (∀ u ∈ mid, textKey u ≠ key ∧ u.head? ≠ some chOpen) → ∀ n, Missed value
          (lookup name key (before ++ header name :: mid ++ fullLines [⟨(assignment key value).take i, n⟩])) := by
  by_cases hlt : i < key.length
  · -- the key itself is cut
    have hu : (assignment key value).take i = key.take i := by
      rw [assignment, take_append_of_le_length (by omega)]
    have hkey := textKey_take hlt
    rw [hu]
    refine ⟨fun he => absurd he hkey, ?_⟩
    intro before mid hb hm n
    have hhead : (key.take i).head? ≠ some chOpen := by
      intro ho
      have hmem : chOpen ∈ key := mem_of_mem_take (mem_of_mem_head? ho)
      exact (nameChar_facts _ (hk.chars _ hmem)).2.2.2.1 rfl
    have hlast : ∀ u ∈ fullLines [⟨key.take i, n⟩], textKey u ≠ key ∧ u.head? ≠ some chOpen :=
      forall_fullLines (by simpa using ⟨hkey, hhead⟩)
    have hnone : lookup name key (before ++ header name :: (mid ++ fullLines [⟨key.take i, n⟩]) ++ []) = none := by
      exact lookup_none hb (forall_mem_append.mpr ⟨hm, hlast⟩) hk (by simp)
    exact .inl (by simpa using hnone)
  · -- the value is cut
    obtain ⟨m, rfl⟩ : ∃ m, i = key.length + (m + 1) := ⟨i - key.length - 1, by omega⟩
    have hm : m < value.length := by
      simp only [assignment, length_append, length_cons] at hi
      omega
    have hu : (assignment key value).take (key.length + (m + 1)) = assignment key (value.take m) := by
      rw [assignment, take_length_add_append]
      rfl
    have hfirst : ∀ c ∈ (value.take m).head?, isspace c = false := by
      intro c hc
      apply hv.first c
      cases m with
      | zero => simp at hc
      | succ m => rwa [head?_take] at hc
    rw [hu]
    refine ⟨fun _ => by simp [assignment], ?_⟩
    intro before mid hb hmid n
    refine .inr ⟨m, hm, ?_⟩
    rw [fullLines_cons_of_not_blank (hk.not_blank_assignment _)]
    rw [lookup_found hb hmid (hk.textKey_assignment _), hk.textValue_assignment hfirst]

theorem RawLines.end_take {t : List UInt8} (hl : t.length ≤ iniMaxLineLen - 1) (hx : ∀ x ∈ t, x ≠ chCr ∧ x ≠ chLf)
    (i : ℕ) : RawLines (t.take i) [⟨t.take i, (t.take i).length⟩] :=
  .end (by rw [length_take]; omega) fun x hx' => hx x (mem_of_mem_take hx')

theorem Tame.take {t : List UInt8} (h : Tame t) {i : ℕ}
    (hc : (t.take i).head? = some chOpen → t.take i = t ∨ chClose ∉ t.take i) : Tame (t.take i) := by
  refine ⟨fun c hc => h.nonul c (mem_of_mem_take hc), (length_take_le' _ _).trans h.short, fun ho => ?_⟩
  rcases hc ho with he | hc
  · rw [he] at ho ⊢
    exact h.header ho
  · exact .inr hc

theorem tame_assignment_take (hk : IsName key) (hv : IsValue key value) (i : ℕ) :
    Tame ((assignment key value).take i) := by
  refine (hv.iniLine hk).tame.take fun ho => ?_
  cases i with
  | zero => simp at ho
  | succ i =>
    rw [head?_take] at ho
    exact absurd ho (hk.assignment_head value)

theorem tame_header_take (hn : IsName name) (i : ℕ) : Tame ((header name).take i) := by
  refine hn.iniLine_header.tame.take fun _ => ?_
  by_cases hi : i ≤ name.length + 1
  · refine .inr fun hc => ?_
    rw [header, take_append_of_le_length (by simpa using hi)] at hc
    rcases mem_cons.mp (mem_of_mem_take hc) with he | hc
    · revert he
      decide
    · exact hn.not_close hc
  · exact .inl (take_of_length_le (by simp [header]; omega))

/-- The lines read where the new text has been cut. -/
structure CutLines (name key value : List UInt8) (sectionFound : Bool) (text : List UInt8) (C : List RawLine) :
    Prop where
  raw : RawLines text C
  tame : ∀ l ∈ C, Tame l.text
  eq : ∀ l ∈ C, textKey l.text = key → chEq ∈ l.text
  inSection : sectionFound = true → ∀ {before mid : List (List UInt8)}, (∀ u ∈ before, u ≠ header name) →
    (∀ u ∈ mid, textKey u ≠ key ∧ u.head? ≠ some chOpen) →
    Missed value (lookup name key (before ++ header name :: mid ++ fullLines C))
  atEnd : sectionFound = false → ∀ {before : List (List UInt8)}, (∀ u ∈ before, u ≠ header name) →
    Missed value (lookup name key (before ++ fullLines C))

theorem fullLines_nil_cons (n : ℕ) (ls : List RawLine) : fullLines (⟨[], n⟩ :: ls) = fullLines ls := rfl

theorem cutLines_section (hk : IsName key) (hv : IsValue key value) {j : ℕ} (hj : j < (assignment key value).length)
    (hne : j ≠ key.length) :
    CutLines name key value true ((newText true name key value).take j)
      [⟨(assignment key value).take j, ((assignment key value).take j).length⟩] := by
  obtain ⟨heq, hmiss⟩ := lookup_cut name hk hv hj hne
  have htake : (newText true name key value).take j = (assignment key value).take j := by
    rw [newText, if_pos rfl, hv.keyText_eq hk, take_append_of_le_length (by omega)]
  refine ⟨?_, by simpa using tame_assignment_take hk hv j, by simpa using heq, fun _ _ _ hb hm => hmiss hb hm _,
    Bool.noConfusion⟩
  rw [htake]
  exact .end_take (Nat.le_sub_one_of_lt hv.short) (hv.line hk) j

section
variable (hn : IsName name) (hk : IsName key)
include hn hk

theorem cutLines_header {j : ℕ} (hj : j ≤ (header name).length) :
    CutLines name key value false ((newText false name key value).take (j + 1))
      [⟨[], 1⟩, ⟨(header name).take j, ((header name).take j).length⟩] := by
  have htake : (newText false name key value).take (j + 1) = chLf :: (header name).take j := by
    have hnew : newText false name key value = chLf :: (header name ++ ([chLf] ++ keyText key value)) := by
      simp [newText, hn.sectionText_eq]
    rw [hnew, take_succ_cons, take_append_of_le_length hj]
  have hopen : (header name).take j = [] ∨ ((header name).take j).head? = some chOpen := by
    cases j with
    | zero => exact .inl rfl
    | succ j => exact .inr rfl
  have hnokey : textKey ((header name).take j) ≠ key := by
    rcases hopen with he | ho
    · rw [he]
      exact fun he' => hk.nonempty he'.symm
    · exact hk.ne_textKey_open ho
  refine ⟨?_, by simpa using ⟨tame_nil, tame_header_take hn j⟩, ?_, Bool.noConfusion, fun _ before hb => .inl ?_⟩
  · rw [htake]
    exact cons (t := []) (by simp) (by simp) (.inr rfl) (.end_take hn.header_length hn.header_line j)
  · have hnil : textKey [] ≠ key := fun he => hk.nonempty he.symm
    simp [hnil, hnokey]
  · rw [fullLines_nil_cons, lookup_skip _ _ hb]
    rcases Nat.lt_or_eq_of_le hj with hlt | rfl
    · have hne : (header name).take j ≠ header name := fun he => absurd (congrArg length he) (by simp; omega)
      have hskip : lookup name key (fullLines [⟨(header name).take j, ((header name).take j).length⟩] ++ []) = none :=
        lookup_skip [] _ (forall_fullLines (by simpa using hne))
      rwa [append_nil] at hskip
    · rw [take_length, fullLines_cons_of_not_blank (not_blank_header name), lookup, if_pos rfl]
      rfl

theorem cutLines_key (hv : IsValue key value) {i : ℕ} (hi : i < (assignment key value).length) (hne : i ≠ key.length) :
    CutLines name key value false ((newText false name key value).take ((header name).length + 2 + i))
      [⟨[], 1⟩, ⟨header name, (header name).length + 1⟩,
        ⟨(assignment key value).take i, ((assignment key value).take i).length⟩] := by
  obtain ⟨heq, hmiss⟩ := lookup_cut name hk hv hi hne
  have htake : (newText false name key value).take ((header name).length + 2 + i) =
      sectionText name ++ (assignment key value).take i := by
    have hnew : newText false name key value = sectionText name ++ (assignment key value ++ [chLf]) := by
      simp [newText, hv.keyText_eq hk]
    have hlen : (sectionText name).length = (header name).length + 2 := by simp [hn.sectionText_eq]
    rw [hnew, ← hlen, take_length_add_append, take_append_of_le_length (by omega)]
  have hnil : textKey [] ≠ key := fun he => hk.nonempty he.symm
  have hhead : textKey (header name) ≠ key := hk.ne_textKey_open rfl
  refine ⟨?_, by simpa using ⟨tame_nil, hn.iniLine_header.tame, tame_assignment_take hk hv i⟩, ?_, Bool.noConfusion,
    fun _ before hb => ?_⟩
  · rw [htake]
    exact (end_take (Nat.le_sub_one_of_lt hv.short) (hv.line hk) i).withSection hn
  · simp only [forall_mem_cons]
    exact ⟨fun he => absurd he hnil, fun he => absurd he hhead, heq, nofun⟩
  · have hcut : Missed value (lookup name key (before ++ header name :: [] ++
        fullLines [⟨(assignment key value).take i, ((assignment key value).take i).length⟩])) := hmiss hb (by simp) _
    rw [fullLines_nil_cons, fullLines_cons_of_not_blank (not_blank_header name)]
    simpa using hcut

/-- The new text, cut off before its last character but not behind the key. -/
theorem exists_cutLines (hv : IsValue key value) (sectionFound : Bool) {j : ℕ}
    (hj : j + 1 < (newText sectionFound name key value).length)
    (hne : j + value.length + 2 ≠ (newText sectionFound name key value).length) :
    ∃ C, CutLines name key value sectionFound ((newText sectionFound name key value).take j) C := by
  have hkl : (keyText key value).length = key.length + value.length + 2 := by
    rw [hv.keyText_eq hk]
    simp [assignment]
    omega
  have hal : (assignment key value).length = key.length + value.length + 1 := by
    simp [assignment]
    omega
  cases sectionFound with
  | true =>
    rw [newText, if_pos rfl] at hj hne
    exact ⟨_, cutLines_section hk hv (by omega) (by omega)⟩
  | false =>
    have hl : (newText false name key value).length = (header name).length + 2 + (key.length + value.length + 2) := by
      simp [newText, hn.sectionText_eq, hkl]
      omega
    cases j with
    | zero =>
      refine ⟨[⟨[], 0⟩], .eof rfl, by simpa using tame_nil, ?_, Bool.noConfusion, fun _ before hb => .inl ?_⟩
      · simpa using fun he : textKey [] = key => absurd he.symm hk.nonempty
      · rw [lookup_skip _ _ hb]
        rfl
    | succ j =>
      by_cases hjh : j ≤ (header name).length
      · exact ⟨_, cutLines_header hn hk hjh⟩
      · obtain ⟨i, hi⟩ : ∃ i, j + 1 = (header name).length + 2 + i := ⟨j + 1 - ((header name).length + 2), by omega⟩
        rw [hi]
        exact ⟨_, cutLines_key hn hk hv (by omega) (by omega)⟩

end

end Cut

/-! ## Reported changes -/

section Sound

variable {W α : Type} (inp out : KFile W) (ss sd : W → FileSt) (name key value : List UInt8) (w : W)

/-- A change that is reported is there: the value is found, and no other line that is not blank is lost. -/
def SetSound : Prop := ∀ stack w', iniSetString inp out name key (some value) stack w = (true, w') →
  (∀ defaultValue size stack', value.length < size →
    (iniGetString out name key defaultValue size stack' w').1 = (true, value)) ∧
  ∀ ls ls', RawLines (ss w).data ls → RawLines (sd w').data ls' →
    (fullLines ((locate name key ls).before ++ (locate name key ls).after)).Sublist (fullLines ls')

/-- The new line is cut and nothing notices: what comes before it fits, nothing comes behind it, and there is no room
for its last character but one. -/
def Edit.CutOff (e : Edit) (size : ℕ) : Prop :=
  rawLen e.before ≤ size ∧ e.needed = 0 ∧
    size + 1 < rawLen e.before + (newText e.sectionFound name key value).length

/-- In 7 bytes there is no room for the second digit, but the call reports success. -/
theorem iniSetString_cut : WellFormed smallIni ∧ IsName [97] ∧ IsName [107] ∧ IsValue [107] [50, 50] ∧
    (iniSetString memFst memSnd [97] [107] (some [50, 50]) (fun _ => 0) (smallWorld 7)).1 = true ∧
    (iniGetString memSnd [97] [107] [] 30 (fun _ => 0)
      (iniSetString memFst memSnd [97] [107] (some [50, 50]) (fun _ => 0) (smallWorld 7)).2).1 = (true, [50]) :=
  ⟨smallIni_wellFormed, isName_a, isName_k, isValue_22, by decide +kernel, by decide +kernel⟩

variable {inp out ss sd name key value w} {fr : W → α} {ls : List RawLine}

theorem rawLines_newText_end (hn : IsName name) (hk : IsName key) (hv : IsValue key value) (sectionFound : Bool) :
    ∃ X, RawLines (newText sectionFound name key value).dropLast X ∧ (∀ l ∈ X, Blank l.text ∨ IniLine l.text) ∧
      fullLines X = newLines sectionFound name key value := by
  have hline := RawLines.end (Nat.le_sub_one_of_lt hv.short) (hv.line hk)
  have hnew := newRaw_lines hn hk hv sectionFound
  have hfull : fullLines (newRaw sectionFound name key value) = _ := fullLines_newRaw hk sectionFound
  cases sectionFound with
  | true =>
    rw [newText, if_pos rfl, hv.keyText_eq hk, dropLast_concat]
    exact ⟨_, hline, by simpa [newRaw] using hnew, hfull⟩
  | false =>
    have htext : newText false name key value = (sectionText name ++ assignment key value) ++ [chLf] := by
      simp [newText, hv.keyText_eq hk]
    rw [htext, dropLast_concat]
    exact ⟨_, hline.withSection hn, by simpa [newRaw] using hnew, hfull⟩

variable {f : List UInt8} {e : Edit}

/-- When nothing is needed after the place, no line with text is there. -/
theorem fullLines_after (hr : RawLines f e.after) (hlast : ∀ l ∈ e.after.getLast?, Blank l.text) (h : e.needed = 0) :
    fullLines e.after = [] := by
  obtain ⟨B, hsplit, hdrop, hB⟩ := exists_trimLines e.after
  have hBne : B ≠ [] := by
    rw [← hdrop]
    exact drop_trimLines_ne_nil hr.ne_nil hlast
  have hnil : trimLines e.after = [] := by
    rw [Edit.needed] at h
    rw [hsplit] at hr
    generalize trimLines e.after = T at h hr
    cases T with
    | nil => rfl
    | cons l T =>
      have hpos := len_pos hr (by simp [hBne])
      rw [rawLen] at h
      omega
  rw [hsplit, hnil, nil_append, fullLines_blank hB]

theorem Located.missed (hloc : Located name key ls e) {text : List UInt8} {C : List RawLine}
    (hC : CutLines name key value e.sectionFound text C) :
    Missed value (lookup name key (fullLines (e.before ++ C))) := by
  rw [fullLines_append]
  cases hloc with
  | noSection _ hP => exact hC.atEnd rfl (forall_fullLines hP)
  | found _ hA hs hM | noKey _ hA hs hM =>
    rw [fullLines_section hs]
    exact hC.inSection rfl (forall_fullLines hA) (forall_fullLines hM)

theorem Missed.ne {found : Option (List UInt8)} (h : Missed value found) (defaultValue : List UInt8) (size : ℕ) :
    getResult defaultValue size found ≠ (true, value) := by
  rcases h with rfl | ⟨m, hm, rfl⟩
  · simp [getResult]
  · intro he
    have hl := congrArg (fun r => r.2.length) he
    simp only [getResult, length_take] at hl
    omega

theorem Edit.text_take {size : ℕ} (hf : rawLen e.before ≤ f.length) (h1 : rawLen e.before ≤ size)
    (h2 : size ≤ rawLen e.before + (newText e.sectionFound name key value).length) :
    (e.text name key value f ++ padding size).take size =
      f.take (rawLen e.before) ++ (newText e.sectionFound name key value).take (size - rawLen e.before) := by
  have hl : (f.take (rawLen e.before)).length = rawLen e.before := by
    rw [length_take]
    omega
  rw [Edit.text, append_assoc, append_assoc, take_append, hl, take_of_length_le (by omega),
    take_append_of_le_length (by omega)]

theorem Located.before_le (hloc : Located name key ls e) (hr : RawLines f ls) : rawLen e.before ≤ f.length := by
  rw [← hr.rawLen_eq, hloc.append, rawLen_append, rawLen_append]
  omega

/-- The lines of the new file are there, with or without its last line feed. -/
theorem rawLines_reported (hw : WellFormed f) (hr : RawLines f ls) (hn : IsName name) (hk : IsName key)
    (hv : IsValue key value) (hloc : Located name key ls e) {size : ℕ} (hrep : e.Reported name key value size)
    (hcut : ¬ e.CutOff name key value size) :
    ∃ L, RawLines ((e.text name key value f ++ padding size).take size) L ∧ Readable L ∧
      fullLines L = fullLines e.before ++ newLines e.sectionFound name key value ++ fullLines e.after := by
  by_cases hfit : e.size name key value ≤ size
  · exact rawLines_edited hw hr hn hk hv hloc hfit
  · -- only the last line feed is missing
    obtain ⟨hlines, hlast⟩ := hw.raw hr
    have hafter := hloc.after_ne_nil (fun _ => hk.nonempty) hr.ne_nil hlast
    have happ := hloc.append
    have hneeded : e.needed = 0 := by
      simp only [Edit.Reported, Edit.size] at hrep hfit
      omega
    have hsize : size + 1 = rawLen e.before + (newText e.sectionFound name key value).length := by
      by_contra hne
      apply hcut ⟨hrep.1, hneeded, ?_⟩
      simp only [Edit.size] at hfit
      omega
    have hnone : fullLines e.after = [] := by
      have hrest := happ ▸ hr
      refine fullLines_after (hrest.drop hafter) (fun l hl => hlast l ?_) hneeded
      rwa [happ, getLast?_append_of_ne_nil _ hafter]
    obtain ⟨X, hX, hXlines, hXfull⟩ := rawLines_newText_end hn hk hv e.sectionFound
    have hdrop : size - rawLen e.before = (newText e.sectionFound name key value).length - 1 := by omega
    rw [Edit.text_take (hloc.before_le hr) hrep.1 (by omega), hdrop, ← dropLast_eq_take]
    rw [happ, append_assoc] at hr
    have hL := hr.append (by simp [hafter]) hX
    refine ⟨_, hL, hL.readable (forall_mem_append.mpr ⟨fun l hl => ?_, hXlines⟩), ?_⟩
    · exact hlines l (by rw [happ]; simp [hl])
    · rw [fullLines_append, hXfull, hnone, append_nil]

section
variable (h : FilePair inp out ss sd fr) (hw : WellFormed (ss w).data) (hr : RawLines (ss w).data ls) (hn : IsName name)
  (hk : IsName key) (hv : IsValue key value)
include h hw hr hn hk hv

/-- A set that is not cut off is sound, -/
theorem setSound_of_not_cutOff (hcut : ¬ (locate name key ls).CutOff name key value (sd w).data.length) :
    SetSound inp out ss sd name key value w := by
  intro stack w' hset
  have hloc := locate_located name key ls
  obtain ⟨w1, hspec, -, -, hdata⟩ := iniSetString_spec h hn hk.printable hv.printable (fun _ => hk.nonempty) hr
    (hw.readable hr).tame (hw.raw hr).2 stack
  obtain ⟨htrue, rfl⟩ := Prod.mk.inj (hspec.symm.trans hset)
  have hrep := of_decide_eq_true htrue
  obtain ⟨L, hL, hread, hfull⟩ := rawLines_reported hw hr hn hk hv hloc hrep hcut
  rw [← hdata hrep] at hL
  constructor
  · intro defaultValue size stack' hsize
    obtain ⟨w2, hget, -, -⟩ := iniGetString_spec h.dst hn hk hL hread.tame (hread.eq_of_key hk) defaultValue size stack'
    rw [hget, hfull, hloc.lookup_new hk hv.first, getResult, take_of_length_le (by omega)]
  · intro ls1 ls2 h1 h2
    rw [h1.unique hr, h2.unique hL, hfull, fullLines_append]
    exact (sublist_append_left _ _).append (List.Sublist.refl _)

/-- and one cut off elsewhere than right after the key is not. -/
theorem not_setSound_of_cutOff (hcut : (locate name key ls).CutOff name key value (sd w).data.length)
    (hsize : (sd w).data.length + value.length + 2 ≠ rawLen (locate name key ls).before +
      (newText (locate name key ls).sectionFound name key value).length) :
    ¬ SetSound inp out ss sd name key value w := by
  intro hsound
  have hread := hw.readable hr
  have hloc := locate_located name key ls
  have happ := hloc.append
  have hafter := hloc.after_ne_nil (fun _ => hk.nonempty) hr.ne_nil (hw.raw hr).2
  obtain ⟨h1, h2, h3⟩ := hcut
  have hrep : (locate name key ls).Reported name key value (sd w).data.length := ⟨h1, by rw [h2]; exact Nat.zero_le _⟩
  obtain ⟨w', hset, -, -, hdata⟩ := iniSetString_spec h hn hk.printable hv.printable (fun _ => hk.nonempty)
    hr hread.tame (hw.raw hr).2 fun _ => 0
  rw [decide_eq_true hrep] at hset
  have hdata := hdata hrep
  rw [Edit.text_take (hloc.before_le hr) h1 (by omega)] at hdata
  obtain ⟨C, hC⟩ := exists_cutLines hn hk hv (locate name key ls).sectionFound
    (j := (sd w).data.length - rawLen (locate name key ls).before) (by omega) (by omega)
  have hr' : RawLines (sd w').data ((locate name key ls).before ++ C) := by
    rw [hdata]
    rw [happ, append_assoc] at hr
    exact hr.append (by simp [hafter]) hC.raw
  have hmem : ∀ l ∈ (locate name key ls).before, l ∈ ls := fun l hl => by
    rw [happ]
    simp [hl]
  have htame : ∀ l ∈ (locate name key ls).before ++ C, Tame l.text :=
    forall_mem_append.mpr ⟨fun l hl => hread.tame l (hmem l hl), hC.tame⟩
  have heq : ∀ l ∈ (locate name key ls).before ++ C, textKey l.text = key → chEq ∈ l.text :=
    forall_mem_append.mpr ⟨fun l hl => hread.eq_of_key hk l (hmem l hl), hC.eq⟩
  obtain ⟨w'', hget, -, -⟩ := iniGetString_spec h.dst hn hk hr' htame heq [] (value.length + 1) fun _ => 0
  have hfound := (hsound _ w' hset).1 [] (value.length + 1) (fun _ => 0) (Nat.lt_succ_self _)
  rw [hget] at hfound
  exact (hloc.missed hC).ne _ _ hfound

/-- **When a reported change is there**: always, unless the new line is the last one and is cut off. If it is cut off
right behind its key, what is found is what the buffer held before. -/
theorem iniSetString_sound :
    (¬ (locate name key ls).CutOff name key value (sd w).data.length → SetSound inp out ss sd name key value w) ∧
    ((sd w).data.length + value.length + 2 ≠ rawLen (locate name key ls).before +
        (newText (locate name key ls).sectionFound name key value).length →
      SetSound inp out ss sd name key value w → ¬ (locate name key ls).CutOff name key value (sd w).data.length) := by
  constructor
  · intro hcut
    exact setSound_of_not_cutOff h hw hr hn hk hv hcut
  · intro hsize hsound hcut
    exact not_setSound_of_cutOff h hw hr hn hk hv hcut hsize hsound

end

theorem iniSetString_sound_small : SetSound memFst memSnd Prod.fst Prod.snd [97] [107] [50, 50] (smallWorld 8) := by
  apply (iniSetString_sound (w := smallWorld 8) kfilemem_pair smallIni_wellFormed smallIni_lines isName_a isName_k
    isValue_22).1
  intro hcut
  exact absurd hcut.2.2 (by decide)

end Sound

end Bertos
