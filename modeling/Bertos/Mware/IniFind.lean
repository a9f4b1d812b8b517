import Bertos.Mware.IniText
import Mathlib.Data.List.DropRight
import Mathlib.Data.List.TakeWhile

/-!
# Finding a key

`Holds line s`: the buffer holds the string `s`. What the scans see of it is then a matter of `s` (`Holds.isSection`,
`Holds.getKey`, `Holds.getValue`), so the loops of `ini_reader.c` are searches in the lines of the file
(`findSectionLoop_spec`, `findKeyLoop_spec`). `locate` is the place of a key: where the lines are `Tame`, that is where
`ini_setString` leaves the position (`iniFind_spec`).
-/

namespace Bertos

open List

/-- A line of which no scan for a section or a key sees more than the text: if it starts with a bracket, it is a header
or has no closing bracket. -/
structure Tame (t : List UInt8) : Prop where
  nonul : ∀ c ∈ t, c ≠ 0
  short : t.length ≤ iniMaxLineLen - 1
  header : t.head? = some chOpen → (∃ name, chClose ∉ name ∧ t = header name) ∨ chClose ∉ t

/-- A name that `findSection` can find. -/
structure SectionName (name : List UInt8) : Prop where
  not_close : chClose ∉ name
  nonul : (0 : UInt8) ∉ name

variable {name : List UInt8}

theorem IsName.sectionName (h : IsName name) : SectionName name :=
  ⟨h.not_close, fun h0 => (h.text 0 h0).1 rfl⟩

/-! ## One line in the buffer -/

variable {t : List UInt8}

theorem cstr_eq (h : ∀ c ∈ t, c ≠ 0) : cstr t = t :=
  takeWhile_eq_self_iff.mpr fun c hc => by simpa using h c hc

theorem cstr_append_nul (t u : List UInt8) : cstr (t ++ 0 :: u) = cstr t := by
  induction t with
  | nil => rfl
  | cons c t ih => simp only [cstr, cons_append, takeWhile_cons] at ih ⊢; rw [ih]

theorem cstr_append (h : ∀ c ∈ t, c ≠ 0) (u : List UInt8) : cstr (t ++ 0 :: u) = t := by
  rw [cstr_append_nul, cstr_eq h]

theorem cstr_take (l : List UInt8) (n : ℕ) : cstr (l.take n) = (cstr l).take n := take_takeWhile.symm

theorem dropWhile_isspace_append (t u : List UInt8) :
    (t ++ 0 :: u).dropWhile isspace = t.dropWhile isspace ++ 0 :: u := by
  rw [dropWhile_append]
  split
  · rename_i he
    rw [isEmpty_iff.mp he, dropWhile_cons]
    rfl
  · rfl

/-- A scan that does not stop at the end of the string is cut there by the reader of its result. -/
theorem cstr_takeWhile (p : UInt8 → Bool) (u : List UInt8) {d : List UInt8} (h : ∀ c ∈ d, c ≠ 0) (n : ℕ) :
    cstr (((d ++ 0 :: u).takeWhile p).take n) = (d.takeWhile p).take n := by
  have hcomm : ∀ l, cstr (l.takeWhile p) = (cstr l).takeWhile p := fun l => by
    simp only [cstr, takeWhile_takeWhile, and_comm]
  rw [cstr_take, hcomm, cstr_append h]

/-- The buffer holds the string `s`. -/
structure Holds (line : ℕ → UInt8) (s : List UInt8) : Prop where
  nonul : ∀ c ∈ s, c ≠ 0
  short : s.length ≤ iniMaxLineLen - 1
  bytes : ∃ u, lineBytes line = s ++ 0 :: u

theorem append_nul (u : List UInt8) : ∀ t, ∃ v, t ++ 0 :: u = cstr t ++ 0 :: v
  | [] => ⟨u, rfl⟩
  | c :: t => by
    obtain ⟨v, hv⟩ := append_nul u t
    by_cases hc : c = 0
    · exact ⟨t ++ 0 :: u, by simp [cstr, hc]⟩
    · exact ⟨v, by simpa [cstr, hc] using hv⟩

theorem holds_write (line : ℕ → UInt8) (h : t.length ≤ iniMaxLineLen - 1) :
    Holds (Mem.write line 0 (t ++ [0])) (cstr t) where
  nonul := by
    intro c hc
    simpa using mem_takeWhile_imp hc
  short := (List.takeWhile_prefix _).length_le.trans h
  bytes := by
    have hl : (t ++ [0]).length = t.length + 1 := by simp
    simp only [iniMaxLineLen] at h
    rw [lineBytes, Mem.read_write_within _ _ _ (Nat.zero_le _) (by simp only [iniMaxLineLen]; omega)]
    simpa using append_nul _ t

/-- The line is the header of the section, whatever follows its closing bracket. -/
def IsHeader (name s : List UInt8) : Prop := chClose ∉ name ∧ header name <+: s

instance (name s : List UInt8) : Decidable (IsHeader name s) := instDecidableAnd

/-- The scan for the closing bracket does not stop at the NUL, but then the name has a NUL. -/
theorem takeWhile_close_iff (u : List UInt8) : ∀ v name : List UInt8, (0 : UInt8) ∉ name →
    ((v ++ 0 :: u).takeWhile (· ≠ chClose) = name ↔ chClose ∉ name ∧ name ++ [chClose] <+: v)
  | [], name, hn => by
    refine iff_of_false (fun h => hn ?_) (by simp)
    rw [← h]
    simp [chClose]
  | c :: v, [], _ => by
    by_cases hc : c = chClose
    · simp [hc]
    · simp [hc, Ne.symm hc]
  | c :: v, d :: name, hn => by
    have ih := takeWhile_close_iff u v name fun h => hn (mem_cons_of_mem _ h)
    simp only [cons_append, cons_prefix_cons, mem_cons, not_or]
    by_cases hc : c = chClose
    · simp only [hc, ne_eq, not_true_eq_false, decide_false, Bool.false_eq_true, not_false_eq_true,
        takeWhile_cons_of_neg]
      exact iff_of_false (by simp) fun h => h.1.1 h.2.1.symm
    · rw [takeWhile_cons_of_pos (by simpa using hc), cons.injEq, ih]
      exact ⟨fun h => ⟨⟨h.1 ▸ Ne.symm hc, h.2.1⟩, h.1.symm, h.2.2⟩, fun h => ⟨h.2.1.symm, h.1.2, h.2.2⟩⟩

section Buffer

variable {line : ℕ → UInt8} {s : List UInt8}

theorem Holds.zero (h : Holds line s) : line 0 = chOpen ↔ s.head? = some chOpen := by
  obtain ⟨u, hu⟩ := h.bytes
  have hz : line 0 = (lineBytes line).headD 0 := rfl
  rw [hz, hu]
  cases s with
  | nil => simp [chOpen]
  | cons c s => simp

theorem Holds.read_one {v : List UInt8} (h : Holds line (chOpen :: v)) :
    ∃ u, Mem.read line 1 iniMaxLineLen = v ++ 0 :: u := by
  obtain ⟨u, hu⟩ := h.bytes
  have hv : v.length + 1 ≤ iniMaxLineLen - 1 := h.short
  obtain ⟨k, hk⟩ := Nat.exists_eq_add_of_lt (show v.length < iniMaxLineLen by omega)
  have hd := Mem.drop_read line 0 (2 * iniMaxLineLen) 1 (by decide)
  refine ⟨u.take k, ?_⟩
  rw [← Mem.take_read line 1 (2 * iniMaxLineLen - 1) iniMaxLineLen (by decide), ← hd,
    show Mem.read line 0 (2 * iniMaxLineLen) = lineBytes line from rfl, hu, cons_append, drop_one,
    tail_cons, take_append, take_of_length_le (by omega),
    show iniMaxLineLen - v.length = k + 1 by omega, take_succ_cons]

/-- Only a line that starts with the whole header is taken for it. -/
theorem Holds.isSection (h : Holds line s) (hn : (0 : UInt8) ∉ name) :
    isSection line name = true ↔ IsHeader name s := by
  simp only [Bertos.isSection, Bool.and_eq_true, beq_iff_eq]
  by_cases ho : s.head? = some chOpen
  · obtain ⟨v, rfl⟩ : ∃ v, s = chOpen :: v := ⟨s.tail, (cons_head?_tail ho).symm⟩
    obtain ⟨u, hu⟩ := h.read_one
    have hheader : IsHeader name (chOpen :: v) ↔ chClose ∉ name ∧ name ++ [chClose] <+: v := by
      simp [IsHeader, header]
    have hpre := takeWhile_prefix (l := Mem.read line 1 iniMaxLineLen) (· ≠ chClose)
    have htake := prefix_iff_eq_take.mp hpre
    rw [Mem.take_read _ _ _ _ (by simpa using hpre.length_le)] at htake
    rw [hheader, ← takeWhile_close_iff u v name hn, ← hu]
    constructor
    · rintro ⟨⟨-, hlen⟩, hname⟩
      rw [htake, hlen, hname]
    · intro hname
      rw [hname] at htake
      exact ⟨⟨h.zero.mpr ho, by rw [hname]⟩, htake.symm⟩
  · refine iff_of_false (fun hs => ho (h.zero.mp hs.1.1)) ?_
    rintro ⟨-, r, rfl⟩
    exact ho rfl

theorem Holds.lineEmpty (h : Holds line s) : lineEmpty line = s.all isspace := by
  obtain ⟨u, hu⟩ := h.bytes
  rw [Bertos.lineEmpty, hu, cstr_append h.nonul]

theorem Holds.getKey (h : Holds line s) : getKey line 30 = textKey s := by
  obtain ⟨u, hu⟩ := h.bytes
  rw [Bertos.getKey, hu, dropWhile_isspace_append]
  apply cstr_takeWhile
  intro c hc
  exact h.nonul c (dropWhile_suffix isspace |>.mem hc)

theorem Holds.getValue (h : Holds line s) (he : chEq ∈ s) (size : ℕ) :
    getValue line size = (textValue s).take (size - 1) := by
  obtain ⟨u, hu⟩ := h.bytes
  obtain ⟨a, b, rfl, ha⟩ := eq_append_cons_of_mem he
  have hp : ∀ c ∈ a, decide (c ≠ chEq) = true := fun c hc => decide_eq_true fun hcc => ha (hcc ▸ hc)
  have hb : ∀ c ∈ b.dropWhile isspace, c ≠ 0 := fun c hc => h.nonul c (by simp [dropWhile_suffix isspace |>.mem hc])
  rw [Bertos.getValue, hu, textValue, append_assoc, dropWhile_append_of_pos hp, dropWhile_append_of_pos hp]
  simp [dropWhile_isspace_append, cstr_append hb]

end Buffer

/-- The string that a line leaves in the buffer. -/
def RawLine.str (l : RawLine) : List UInt8 := cstr l.text

theorem Tame.cstr_eq (h : Tame t) : cstr t = t := Bertos.cstr_eq h.nonul

/-- In a tame line a header is the text of the header. -/
theorem Tame.isHeader_iff {t : List UInt8} (h : Tame t) (hn : SectionName name) :
    IsHeader name t ↔ t = Bertos.header name := by
  constructor
  · rintro ⟨-, hpre⟩
    have hmem : chClose ∈ t := hpre.subset (by simp [Bertos.header])
    have hopen : t.head? = some chOpen := by
      obtain ⟨r, rfl⟩ := hpre
      rfl
    obtain ⟨nm, hnm, rfl⟩ := (h.header hopen).resolve_right fun hno => hno hmem
    -- both names go up to the first closing bracket
    have hz : (0 : UInt8) ∉ nm := fun h0 => h.nonul 0 (by simp [Bertos.header, h0]) rfl
    have hname := (takeWhile_close_iff [] (nm ++ [chClose]) name hn.nonul).mpr
      ⟨hn.not_close, (cons_prefix_cons.mp hpre).2⟩
    rw [← hname, (takeWhile_close_iff [] _ nm hz).mpr ⟨hnm, prefix_rfl⟩]
  · rintro rfl
    exact ⟨hn.not_close, prefix_rfl⟩

/-! ## The loops -/

/-- Where the last line that is not blank ends, `last` if there is none. -/
def lastFull (pos last : ℕ) : List RawLine → ℕ
  | [] => last
  | l :: ls => lastFull (pos + l.len) (if Blank l.text then last else pos + l.len) ls

theorem lastFull_append (A B : List RawLine) (pos last : ℕ) :
    lastFull pos last (A ++ B) = lastFull (pos + rawLen A) (lastFull pos last A) B := by
  induction A generalizing pos last with
  | nil => rfl
  | cons l A ih => rw [cons_append, lastFull, ih, lastFull, rawLen, Nat.add_assoc]

/-- The lines up to the last one that is not blank. -/
def trimLines (ls : List RawLine) : List RawLine := ls.rdropWhile fun l => decide (Blank l.text)

theorem lastFull_eq (ls : List RawLine) (pos : ℕ) : lastFull pos pos ls = pos + rawLen (trimLines ls) := by
  induction ls using reverseRecOn with
  | nil => rfl
  | append_singleton ls l ih =>
    have ht : trimLines (ls ++ [l]) = if Blank l.text then trimLines ls else ls ++ [l] := by
      simp only [trimLines, rdropWhile_concat, decide_eq_true_eq]
    rw [lastFull_append, ih, lastFull, lastFull, ht]
    by_cases hl : Blank l.text
    · rw [if_pos hl, if_pos hl]
    · rw [if_neg hl, if_neg hl, rawLen_append, Nat.add_assoc]
      rfl

theorem drop_trimLines (ls : List RawLine) :
    ls.drop (trimLines ls).length = ls.rtakeWhile fun l => decide (Blank l.text) := by
  have hls : trimLines ls ++ ls.rtakeWhile _ = ls := rdropWhile_append_rtakeWhile ..
  have hd := congrArg (drop (trimLines ls).length) hls
  rw [drop_left] at hd
  exact hd.symm

theorem exists_trimLines (ls : List RawLine) :
    ∃ B, ls = trimLines ls ++ B ∧ ls.drop (trimLines ls).length = B ∧ ∀ l ∈ B, Blank l.text :=
  ⟨_, (rdropWhile_append_rtakeWhile ..).symm, drop_trimLines ls, fun l hl => by simpa using mem_rtakeWhile_imp hl⟩

variable {ls : List RawLine}

theorem drop_trimLines_ne_nil (hne : ls ≠ []) (hlast : ∀ l ∈ ls.getLast?, Blank l.text) :
    ls.drop (trimLines ls).length ≠ [] := by
  rw [drop_trimLines, ne_eq, rtakeWhile_eq_nil_iff]
  exact fun h => h hne (decide_eq_true (hlast _ (getLast?_eq_some_getLast hne)))

/-- Behind the end of the file an empty line is read. -/
def orEmpty (ls : List RawLine) : List RawLine := if ls.isEmpty then [⟨[], 0⟩] else ls

/-- What a search finds: the lines behind the header, if there is one, and the position that is left. -/
def sectionSearch (name : List UInt8) (pos last : ℕ) : List RawLine → Option (List RawLine) × ℕ
  | [] => (none, last)
  | l :: ls =>
    if IsHeader name l.str then (some ls, pos + l.len)
    else sectionSearch name (pos + l.len) (if l.str.all isspace then last else pos + l.len) ls

/-- What a search finds: the line that has the key, if there is one, and the position that is left. -/
def keySearch (key : List UInt8) (pos last : ℕ) : List RawLine → Option RawLine × ℕ
  | [] => (none, last)
  | l :: ls =>
    if textKey l.str = key then (some l, pos)
    else if l.str.head? = some chOpen then (none, last)
    else keySearch key (pos + l.len) (if l.str.all isspace then last else pos + l.len) ls

/-- A line of a section in which the loop of `findKey` goes on. -/
structure Passed (key t : List UInt8) : Prop where
  tame : Tame t
  key : textKey t ≠ key
  head : t.head? ≠ some chOpen

theorem sectionSearch_append (hn : SectionName name) (B : List RawLine) : ∀ (A : List RawLine)
    (pos last : ℕ), (∀ a ∈ A, Tame a.text ∧ a.text ≠ header name) →
    sectionSearch name pos last (A ++ B) = sectionSearch name (pos + rawLen A) (lastFull pos last A) B
  | [], _, _, _ => rfl
  | a :: A, pos, last, hA => by
    obtain ⟨ht, hne⟩ := hA a (by simp)
    have hstr : a.str = a.text := ht.cstr_eq
    rw [cons_append, sectionSearch, hstr, if_neg (mt (ht.isHeader_iff hn).mp hne),
      sectionSearch_append hn B A _ _ fun x hx => hA x (by simp [hx]), rawLen, Nat.add_assoc]
    rfl

variable {key : List UInt8}

theorem keySearch_append (B : List RawLine) : ∀ (M : List RawLine) (pos last : ℕ), (∀ m ∈ M, Passed key m.text) →
    keySearch key pos last (M ++ B) = keySearch key (pos + rawLen M) (lastFull pos last M) B
  | [], _, _, _ => rfl
  | m :: M, pos, last, hM => by
    obtain ⟨ht, hk, ho⟩ := hM m (by simp)
    have hstr : m.str = m.text := ht.cstr_eq
    rw [cons_append, keySearch, hstr, if_neg hk, if_neg ho,
      keySearch_append B M _ _ fun x hx => hM x (by simp [hx]), rawLen, Nat.add_assoc]
    rfl

theorem keySearch_orEmpty (hk : key ≠ []) (pos last : ℕ) (ls : List RawLine) :
    keySearch key pos last (orEmpty ls) = keySearch key pos last ls := by
  cases ls with
  | nil => simp [orEmpty, keySearch, RawLine.str, cstr, textKey, Ne.symm hk]
  | cons l ls => rfl

theorem RawLines.short {f : List UInt8} (h : RawLines f ls) : ∀ l ∈ ls, l.text.length ≤ iniMaxLineLen - 1 := by
  induction h with
  | @eof f t n h =>
    have hg := (getsText_length (iniMaxLineLen - 1) f).1
    rw [h] at hg
    simpa using hg
  | @more f t n ls h hl ih =>
    have hg := (getsText_length (iniMaxLineLen - 1) f).1
    rw [h] at hg
    simpa using ⟨hg, ih⟩

section Loops

variable {W α : Type} {fd : KFile W} {st : W → FileSt} {fr : W → α}

section
variable (h : FixedFile fd st fr)
include h

variable {ls : List RawLine} {w : W}

/-- `kfile_gets` reads the first raw line. -/
theorem RawLines.gets {l : RawLine} (hr : RawLines (st w).rest (l :: ls)) (line : ℕ → UInt8) :
    ∃ w', kfileGets fd line iniMaxLineLen w =
        (if ls.isEmpty then none else some l.text.length, Mem.write line 0 (l.text ++ [0]), w') ∧
      st w' = (st w).advance l.len ∧ fr w' = fr w ∧ (ls ≠ [] → RawLines (st w').rest ls) := by
  obtain ⟨w', hg, hs, hf⟩ := kfileGets_spec h line iniMaxLineLen w
  refine ⟨w', ?_⟩
  generalize hls : l :: ls = ls' at hr
  cases hr with
  | eof he =>
    obtain ⟨rfl, rfl⟩ := cons.inj hls
    rw [he] at hg hs
    exact ⟨hg, hs, hf, fun hne => absurd rfl hne⟩
  | more he hl =>
    obtain ⟨rfl, rfl⟩ := cons.inj hls
    rw [he] at hg hs
    refine ⟨?_, hs, hf, fun _ => ?_⟩
    · rw [hg, isEmpty_eq_false_iff.mpr hl.ne_nil]
    · rw [hs, FileSt.rest_advance]
      exact hl

/-- Reading a line leaves it in the buffer as a string. -/
theorem RawLines.gets_holds {l : RawLine} (hr : RawLines (st w).rest (l :: ls)) (line : ℕ → UInt8) :
    ∃ err line' w', kfileGets fd line iniMaxLineLen w = (err, line', w') ∧ Holds line' l.str ∧
      err.isNone = ls.isEmpty ∧ fd.seekPos w' = (st w).pos + l.len ∧ st w' = (st w).advance l.len ∧ fr w' = fr w ∧
      RawLines (st w').rest (orEmpty ls) := by
  obtain ⟨w', hg, hs, hf, hrest⟩ := hr.gets h line
  refine ⟨_, _, w', hg, holds_write line (hr.short l (by simp)), ?_, by rw [h.seekPos, hs]; rfl, hs, hf, ?_⟩
  · cases ls <;> rfl
  · cases ls with
    | nil =>
      have hlen := hr.rawLen_eq
      rw [hs, FileSt.rest_advance, show l.len = (st w).rest.length by simpa [rawLen] using hlen, drop_length]
      exact .eof rfl
    | cons l' ls => exact hrest (by simp)

/-- The loop over the lines is a search for the header. -/
theorem findSectionLoop_spec (hn : (0 : UInt8) ∉ name) :
    ∀ (ls : List RawLine) (fuel : ℕ) (line : ℕ → UInt8) (last : ℕ) (w : W), RawLines (st w).rest ls → ls.length ≤ fuel →
    ∃ line' w', findSectionLoop fd name fuel line last w =
        ((sectionSearch name (st w).pos last ls).1.isSome, line', w') ∧
      st w' = { st w with pos := (sectionSearch name (st w).pos last ls).2 } ∧ fr w' = fr w ∧
      ∀ T ∈ (sectionSearch name (st w).pos last ls).1, RawLines (st w').rest (orEmpty T)
  | [], _, _, _, _, hr, _ => absurd rfl hr.ne_nil
  | l :: ls, 0, _, _, _, _, hlen => absurd hlen (by simp)
  | l :: ls, fuel + 1, line, last, w, hr, hlen => by
    obtain ⟨err, line1, w1, hg, hl, herr, hpos, hs, hf, hrest⟩ := hr.gets_holds h line
    simp only [findSectionLoop, hg, hl.lineEmpty, hpos, sectionSearch]
    by_cases hsec : IsHeader name l.str
    · rw [if_pos ((hl.isSection hn).mpr hsec), if_pos hsec]
      refine ⟨line1, w1, rfl, hs, hf, ?_⟩
      rintro T ⟨rfl⟩
      exact hrest
    · rw [if_neg (mt (hl.isSection hn).mp hsec), if_neg hsec]
      cases ls with
      | nil =>
        obtain rfl : err = none := Option.isNone_iff_eq_none.mp herr
        obtain ⟨hs', hf'⟩ := h.seek w1 (if l.str.all isspace then last else (st w).pos + l.len)
        refine ⟨line1, _, rfl, ?_, hf'.trans hf, by simp [sectionSearch]⟩
        rw [hs', hs]
        rfl
      | cons l' ls =>
        obtain ⟨n, rfl⟩ : ∃ n, err = some n := Option.isSome_iff_exists.mp (by simpa using herr)
        obtain ⟨line', w', he, hs', hf', hT⟩ := findSectionLoop_spec hn (l' :: ls) fuel line1
          (if l.str.all isspace then last else (st w).pos + l.len) w1 hrest (by simpa using hlen)
        rw [hs] at he hs' hT
        exact ⟨line', w', he, hs', hf'.trans hf, hT⟩

/-- The loop over the lines is a search for the key. -/
theorem findKeyLoop_spec (key : List UInt8) :
    ∀ (ls : List RawLine) (fuel : ℕ) (line : ℕ → UInt8) (last : ℕ) (w : W), RawLines (st w).rest ls → ls.length ≤ fuel →
    ∃ line' w', findKeyLoop fd key fuel line last (st w).pos w =
        ((keySearch key (st w).pos last ls).1.isSome, line', w') ∧
      st w' = { st w with pos := (keySearch key (st w).pos last ls).2 } ∧ fr w' = fr w ∧
      ∀ l ∈ (keySearch key (st w).pos last ls).1, Holds line' l.str
  | [], _, _, _, _, hr, _ => absurd rfl hr.ne_nil
  | l :: ls, 0, _, _, _, _, hlen => absurd hlen (by simp)
  | l :: ls, fuel + 1, line, last, w, hr, hlen => by
    obtain ⟨err, line1, w1, hg, hl, herr, hpos, hs, hf, hrest⟩ := hr.gets_holds h line
    simp only [findKeyLoop, hg, hl.lineEmpty, hl.getKey, hpos, keySearch]
    by_cases hk : textKey l.str = key
    · obtain ⟨hs', hf'⟩ := h.seek w1 (st w).pos
      rw [if_pos hk, if_pos hk]
      refine ⟨line1, _, rfl, ?_, hf'.trans hf, ?_⟩
      · rw [hs', hs]
        rfl
      · rintro l ⟨rfl⟩
        exact hl
    · rw [if_neg hk, if_neg hk]
      by_cases ho : l.str.head? = some chOpen
      · obtain ⟨hs', hf'⟩ := h.seek w1 last
        have hz : line1 0 = chOpen := hl.zero.mpr ho
        simp only [ho, hz, bne_self_eq_false, Bool.and_false, Bool.false_eq_true, if_false, beq_self_eq_true,
          Bool.or_true, if_true]
        refine ⟨line1, _, rfl, ?_, hf'.trans hf, by simp⟩
        rw [hs', hs]
        rfl
      · have hz : ¬ line1 0 = chOpen := mt hl.zero.mp ho
        have hlast : (if !l.str.all isspace && line1 0 != chOpen then (st w).pos + l.len else last) =
            if l.str.all isspace then last else (st w).pos + l.len := by
          rw [bne_iff_ne.mpr hz]
          cases l.str.all isspace <;> rfl
        rw [hlast, if_neg ho, herr, beq_false_of_ne hz, Bool.or_false]
        cases ls with
        | nil =>
          obtain ⟨hs', hf'⟩ := h.seek w1 (if l.str.all isspace then last else (st w).pos + l.len)
          refine ⟨line1, _, rfl, ?_, hf'.trans hf, by simp [keySearch]⟩
          rw [hs', hs]
          rfl
        | cons l' ls =>
          obtain ⟨line', w', he, hs', hf', hl'⟩ := findKeyLoop_spec key (l' :: ls) fuel line1
            (if l.str.all isspace then last else (st w).pos + l.len) w1 hrest (by simpa using hlen)
          rw [hs] at he hs' hl'
          exact ⟨line', w', he, hs', hf'.trans hf, hl'⟩

/-- The loop returns the end of the last line that is not blank. -/
theorem findLastLineLoop_spec :
    ∀ (ls : List RawLine) (fuel : ℕ) (line : ℕ → UInt8) (last : ℕ) (w : W), RawLines (st w).rest ls →
    (∀ l ∈ ls, Tame l.text) → ls.length ≤ fuel →
    ∃ line' w', findLastLineLoop fd fuel line last w = (lastFull (st w).pos last ls, line', w') ∧
      (st w').data = (st w).data ∧ fr w' = fr w
  | [], _, _, _, _, hr, _, _ => absurd rfl hr.ne_nil
  | l :: ls, 0, _, _, _, _, _, hlen => absurd hlen (by simp)
  | l :: ls, fuel + 1, line, last, w, hr, hls, hlen => by
    obtain ⟨err, line1, w1, hg, hl, herr, hpos, hs, hf, hrest⟩ := hr.gets_holds h line
    have hstr : l.str = l.text := (hls l (by simp)).cstr_eq
    simp only [findLastLineLoop, hg, hl.lineEmpty, hpos, hstr]
    cases ls with
    | nil =>
      obtain rfl : err = none := Option.isNone_iff_eq_none.mp herr
      exact ⟨line1, w1, rfl, by rw [hs]; rfl, hf⟩
    | cons l' ls =>
      obtain ⟨n, rfl⟩ : ∃ n, err = some n := Option.isSome_iff_exists.mp (by simpa using herr)
      obtain ⟨line', w', he, hs', hf'⟩ := findLastLineLoop_spec (l' :: ls) fuel line1
        (if l.text.all isspace then last else (st w).pos + l.len) w1 hrest (fun x hx => hls x (by simp [hx]))
        (by simpa using hlen)
      rw [hs] at he hs'
      exact ⟨line', w', he, hs', hf'.trans hf⟩

theorem RawLines.length_le_size (hr : RawLines (st w).rest ls) : ls.length ≤ fd.size w + 1 := by
  have := hr.length_le
  rw [FileSt.rest, length_drop] at this
  rw [h.size]
  omega

theorem findLastLine_spec (hr : RawLines (st w).rest ls) (hls : ∀ l ∈ ls, Tame l.text) (line : ℕ → UInt8) :
    ∃ w', findLastLine fd line w = (lastFull (st w).pos (st w).pos ls, w') ∧ st w' = st w ∧ fr w' = fr w := by
  obtain ⟨line', w1, he, hs, hf⟩ := findLastLineLoop_spec h ls (fd.size w + 1) line (st w).pos w hr hls
    (hr.length_le_size h)
  obtain ⟨hs', hf'⟩ := h.seek w1 (st w).pos
  refine ⟨fd.seek w1 (st w).pos, ?_, ?_, hf'.trans hf⟩
  · simp only [findLastLine, h.seekPos, he]
  · simp only [hs', hs]

theorem findSection_spec (hn : (0 : UInt8) ∉ name) (hr : RawLines (st w).rest ls) (line : ℕ → UInt8) :
    ∃ line' w', findSection fd name line w = ((sectionSearch name (st w).pos (st w).pos ls).1.isSome, line', w') ∧
      st w' = { st w with pos := (sectionSearch name (st w).pos (st w).pos ls).2 } ∧ fr w' = fr w ∧
      ∀ T ∈ (sectionSearch name (st w).pos (st w).pos ls).1, RawLines (st w').rest (orEmpty T) := by
  rw [findSection, h.seekPos]
  exact findSectionLoop_spec h hn ls _ line _ w hr (hr.length_le_size h)

theorem findKey_spec (key : List UInt8) (hr : RawLines (st w).rest ls) (line : ℕ → UInt8) :
    ∃ line' w', findKey fd key line w = ((keySearch key (st w).pos (st w).pos ls).1.isSome, line', w') ∧
      st w' = { st w with pos := (keySearch key (st w).pos (st w).pos ls).2 } ∧ fr w' = fr w ∧
      ∀ l ∈ (keySearch key (st w).pos (st w).pos ls).1, Holds line' l.str := by
  rw [findKey, h.seekPos]
  exact findKeyLoop_spec h key ls _ line _ w hr (hr.length_le_size h)

end

end Loops

/-! ## The place of a key -/

/-- Where a key is set: the lines before the place, the line that has the key, the lines behind. -/
structure Edit where
  sectionFound : Bool
  keyFound : Bool
  before : List RawLine
  old : List RawLine
  after : List RawLine

/-- The lines of a section before the place of a key, and whether the key is there. -/
def locateKey (key : List UInt8) (ls : List RawLine) : Bool × List RawLine :=
  let mid := ls.takeWhile fun l => textKey l.text ≠ key && l.text.head? ≠ some chOpen
  match ls.drop mid.length with
  | [] => (false, trimLines mid)
  | l :: _ => if textKey l.text = key then (true, mid) else (false, trimLines mid)

/-- The place of a key: its line, or behind the last line of its section that is not blank, or behind the last line of
the file that is not blank. -/
def locate (name key : List UInt8) (ls : List RawLine) : Edit :=
  let first := ls.takeWhile fun l => l.text ≠ header name
  match ls.drop first.length with
  | [] => ⟨false, false, trimLines ls, [], ls.drop (trimLines ls).length⟩
  | s :: ls' =>
    match locateKey key ls' with
    | (true, mid) => ⟨true, true, first ++ s :: mid, (ls'.drop mid.length).take 1, ls'.drop (mid.length + 1)⟩
    | (false, mid) => ⟨true, false, first ++ s :: mid, [], ls'.drop mid.length⟩

/-- What `locate` finds. -/
inductive Located (name key : List UInt8) (ls : List RawLine) : Edit → Prop
  | noSection {P R : List RawLine} (hls : ls = P ++ R) (hP : ∀ l ∈ P, l.text ≠ header name) (hT : P = trimLines ls)
      (hR : ∀ l ∈ R, Blank l.text) : Located name key ls ⟨false, false, P, [], R⟩
  | found {A M R : List RawLine} {s l : RawLine} (hls : ls = (A ++ s :: M) ++ l :: R)
      (hA : ∀ a ∈ A, a.text ≠ header name) (hs : s.text = header name)
      (hM : ∀ m ∈ M, textKey m.text ≠ key ∧ m.text.head? ≠ some chOpen) (hl : textKey l.text = key) :
      Located name key ls ⟨true, true, A ++ s :: M, [l], R⟩
  | noKey {A M B R : List RawLine} {s : RawLine} (hls : ls = (A ++ s :: M) ++ (B ++ R))
      (hA : ∀ a ∈ A, a.text ≠ header name) (hs : s.text = header name)
      (hM : ∀ m ∈ M, textKey m.text ≠ key ∧ m.text.head? ≠ some chOpen)
      (hT : M = trimLines (M ++ B)) (hB : ∀ l ∈ B, Blank l.text) (hR : ∀ r ∈ R.head?, r.text.head? = some chOpen) :
      Located name key ls ⟨true, false, A ++ s :: M, [], B ++ R⟩

theorem exists_first (p : RawLine → Bool) (ls : List RawLine) :
    (ls.takeWhile p = ls ∧ ∀ l ∈ ls, p l = true) ∨
      ∃ A l B, ls = A ++ l :: B ∧ ls.takeWhile p = A ∧ p l = false ∧ ∀ a ∈ A, p a = true := by
  have happ := takeWhile_append_dropWhile (p := p) (l := ls)
  have hall : ∀ a ∈ ls.takeWhile p, p a = true := fun a ha => mem_takeWhile_imp ha
  have hl := head?_dropWhile_not p ls
  rcases hd : ls.dropWhile p with _ | ⟨l, B⟩
  · rw [hd, append_nil] at happ
    exact .inl ⟨happ, happ ▸ hall⟩
  · rw [hd] at happ hl
    exact .inr ⟨_, l, B, happ.symm, rfl, hl, hall⟩

theorem Blank.textKey (h : Blank t) : textKey t = [] := by
  have hd : t.dropWhile isspace = [] := dropWhile_eq_nil_iff.mpr (by simpa [Blank] using h)
  rw [Bertos.textKey, hd]
  rfl

theorem not_blank_header (name : List UInt8) : ¬ Blank (header name) := by
  intro h
  have := all_eq_true.mp h chOpen (by simp [header])
  revert this
  decide

section Find

variable {W α : Type} {fd : KFile W} {st : W → FileSt} {fr : W → α} {name : List UInt8}

/-- The search for the key ends where `locateKey` says. -/
theorem keySearch_eq (key : List UInt8) (hls : ∀ l ∈ ls, Tame l.text) (pos : ℕ) :
    ∃ o, keySearch key pos pos ls = (o, pos + rawLen (locateKey key ls).2) ∧ o.isSome = (locateKey key ls).1 ∧
      ((locateKey key ls).1 = true → (ls.drop (locateKey key ls).2.length).take 1 = o.toList) := by
  have hpassed : ∀ m ∈ ls, (textKey m.text ≠ key && m.text.head? ≠ some chOpen) = true → Passed key m.text :=
    fun m hm hp => by
      simp only [ne_eq, Bool.and_eq_true, decide_eq_true_eq] at hp
      exact ⟨hls m hm, hp.1, hp.2⟩
  rcases exists_first (fun l => textKey l.text ≠ key && l.text.head? ≠ some chOpen) ls with ⟨hm, hall⟩ |
    ⟨M, l, B, rfl, hm, hl, hM⟩
  · -- the section is the last one
    have happ := keySearch_append [] ls pos pos fun m hm => hpassed m hm (hall m hm)
    rw [append_nil, lastFull_eq] at happ
    simp only [locateKey, hm, drop_length]
    exact ⟨none, happ, rfl, by simp⟩
  · have hstr : l.str = l.text := (hls l (by simp)).cstr_eq
    rw [keySearch_append (l :: B) M pos pos fun m hm => hpassed m (by simp [hm]) (hM m hm), keySearch, hstr,
      lastFull_eq]
    simp only [locateKey, hm, drop_left]
    by_cases hlk : textKey l.text = key
    · simp only [if_pos hlk]
      exact ⟨some l, rfl, rfl, by simp⟩
    · have hlo : l.text.head? = some chOpen := by simpa [hlk] using hl
      simp only [if_neg hlk, if_pos hlo]
      exact ⟨none, rfl, rfl, by simp⟩

/-- **The search**: `ini_setString` is left at the place of the key. An empty key would be found in a blank line. -/
theorem iniFind_spec (h : FixedFile fd st fr) (hn : SectionName name)
    (hk : (locate name key ls).sectionFound = true → key ≠ []) {w : W} (hr : RawLines (st w).rest ls)
    (hls : ∀ l ∈ ls, Tame l.text) (line : ℕ → UInt8) : ∃ line' w', iniFind fd name key line w =
        ((locate name key ls).sectionFound, (locate name key ls).keyFound, line', w') ∧
      st w' = (st w).advance (rawLen (locate name key ls).before) ∧ fr w' = fr w ∧
      ∀ l ∈ (locate name key ls).old, Holds line' l.text := by
  obtain ⟨line1, w1, he, hs1, hf1, hT⟩ := findSection_spec h hn.nonul hr line
  rcases exists_first (fun l => l.text ≠ header name) ls with ⟨hm, hall⟩ | ⟨A, s, T, rfl, hm, hs, hA⟩
  · have hloc : locate name key ls = ⟨false, false, trimLines ls, [], ls.drop (trimLines ls).length⟩ := by
      simp only [locate, hm, drop_length]
    have happ := sectionSearch_append hn [] ls (st w).pos (st w).pos fun l hl => ⟨hls l hl, by simpa using hall l hl⟩
    rw [append_nil, lastFull_eq] at happ
    rw [happ] at he hs1
    rw [hloc]
    exact ⟨line1, w1, by simp only [iniFind, he]; rfl, hs1, hf1, by simp⟩
  · have hs : s.text = header name := by simpa using hs
    have hts := hls s (by simp)
    have hstr : s.str = s.text := hts.cstr_eq
    rw [sectionSearch_append hn (s :: T) A _ _ fun a ha => ⟨hls a (by simp [ha]), by simpa using hA a ha⟩,
      sectionSearch, hstr, if_pos ((hts.isHeader_iff hn).mpr hs)] at he hs1 hT
    have hfound : (locate name key (A ++ s :: T)).sectionFound = true := by
      simp only [locate, hm, drop_left]
      rcases locateKey key T with ⟨_ | _, mid⟩ <;> rfl
    obtain ⟨line', w', he', hs', hf', hD⟩ := findKey_spec h key (hT T rfl) line1
    obtain ⟨o, ho, hsome, hold⟩ := keySearch_eq key (fun l (hl : l ∈ T) => hls l (by simp [hl])) (st w1).pos
    rw [keySearch_orEmpty (hk hfound), ho] at he' hs' hD
    have hfind : iniFind fd name key line w = (true, (locateKey key T).1, line', w') := by
      simp only [iniFind, he, Option.isSome_some, he', hsome]
    have hst : st w' = (st w).advance (rawLen (A ++ s :: (locateKey key T).2)) := by
      rw [hs', hs1, rawLen_append, rawLen]
      simp only [FileSt.advance, Nat.add_assoc]
    refine ⟨line', w', ?_⟩
    simp only [locate, hm, drop_left]
    rcases hloc : locateKey key T with ⟨_ | _, mid⟩
    · rw [hloc] at hfind hst
      exact ⟨hfind, hst, hf'.trans hf1, by simp⟩
    · rw [hloc] at hfind hst hold
      refine ⟨hfind, hst, hf'.trans hf1, fun l hl => ?_⟩
      have hlo : l ∈ o := by simpa [hold rfl] using hl
      have hlT : l ∈ T := mem_of_mem_drop (mem_of_mem_take hl)
      have hlstr : l.str = l.text := (hls l (by simp [hlT])).cstr_eq
      exact hlstr ▸ hD l hlo

end Find

/-! ### What is there -/

section Located

variable {name key : List UInt8}

/-- `locate` finds the place. -/
theorem locate_located (name key : List UInt8) (ls : List RawLine) : Located name key ls (locate name key ls) := by
  rcases exists_first (fun l => l.text ≠ header name) ls with ⟨hm, hall⟩ | ⟨A, s, T, rfl, hm, hs, hA⟩
  · obtain ⟨B, hls, hd, hB⟩ := exists_trimLines ls
    simp only [locate, hm, drop_length, hd]
    exact .noSection hls (fun l hl => by simpa using hall l (by rw [hls]; simp [hl])) rfl hB
  · have hs : s.text = header name := by simpa using hs
    have hA : ∀ a ∈ A, a.text ≠ header name := fun a ha => by simpa using hA a ha
    simp only [locate, hm, drop_left]
    rcases exists_first (fun l => textKey l.text ≠ key && l.text.head? ≠ some chOpen) T with ⟨hm', hall⟩ |
      ⟨M, l, B, rfl, hm', hl, hM⟩
    · obtain ⟨B, hT, hd, hB⟩ := exists_trimLines T
      simp only [locateKey, hm', drop_length, hd]
      have hmid : ∀ m ∈ trimLines T, textKey m.text ≠ key ∧ m.text.head? ≠ some chOpen := fun m hm => by
        simpa using hall m (by rw [hT]; simp [hm])
      have hls : A ++ s :: T = (A ++ s :: trimLines T) ++ (B ++ []) := by
        rw [append_nil, append_assoc, cons_append, ← hT]
      have hcase := Located.noKey hls hA hs hmid (by rw [← hT]) hB (by simp)
      rwa [append_nil] at hcase
    · have hM : ∀ m ∈ M, textKey m.text ≠ key ∧ m.text.head? ≠ some chOpen := fun m hm => by simpa using hM m hm
      by_cases hlk : textKey l.text = key
      · have hd : (M ++ l :: B).drop (M.length + 1) = B := by simp [drop_append]
        simp only [locateKey, hm', drop_left, hlk, if_true, take_succ_cons, take_zero, hd]
        exact .found (by simp) hA hs hM hlk
      · have hlo : l.text.head? = some chOpen := by simpa [hlk] using hl
        obtain ⟨C, hMC, hd, hC⟩ := exists_trimLines M
        have hd' : (M ++ l :: B).drop (trimLines M).length = C ++ l :: B := by
          have hle : (trimLines M).length ≤ M.length := (List.rdropWhile_prefix _ M).length_le
          rw [drop_append_of_le_length hle, hd]
        simp only [locateKey, hm', drop_left, hlk, if_false, hd']
        refine .noKey ?_ hA hs (fun m hm => hM m (by rw [hMC]; simp [hm])) (by rw [← hMC]) hC (by simpa using hlo)
        rw [append_assoc, cons_append, ← append_assoc (trimLines M), ← hMC]

theorem ne_nil_of_header {A T : List RawLine} {s : RawLine} (hs : s.text = header name)
    (hlast : ∀ l ∈ (A ++ s :: T).getLast?, Blank l.text) : T ≠ [] := by
  rintro rfl
  exact not_blank_header name (hs ▸ hlast s (by simp))

theorem Located.append {e : Edit} (h : Located name key ls e) : ls = e.before ++ e.old ++ e.after := by
  cases h with
  | noSection hls | found hls | noKey hls => simpa using hls

/-- A blank last line is after the place. -/
theorem Located.after_ne_nil {e : Edit} (h : Located name key ls e)
    (hk : e.sectionFound = true → key ≠ []) (hne : ls ≠ [])
    (hlast : ∀ l ∈ ls.getLast?, Blank l.text) : e.after ≠ [] := by
  cases h with
  | @noSection P R hls _ hT _ =>
    have hd := drop_trimLines_ne_nil hne hlast
    rw [← hT, hls, drop_left] at hd
    exact hd
  | @found A M R s l hls _ _ _ hl =>
    rintro rfl
    have hb : Blank l.text := hlast l (by rw [hls, getLast?_append]; rfl)
    exact hk rfl (by rw [← hl, hb.textKey])
  | @noKey A M B R s hls _ hs _ hT _ _ =>
    intro hnil
    obtain ⟨rfl, rfl⟩ := append_eq_nil_iff.mp hnil
    rw [append_nil, append_nil] at hls
    rw [append_nil] at hT
    rw [hls] at hlast
    have hM : M ≠ [] := ne_nil_of_header hs hlast
    have hlastM : ∀ l ∈ M.getLast?, Blank l.text := by
      intro l hl
      apply hlast l
      rwa [append_cons, getLast?_append_of_ne_nil _ hM]
    have hd := drop_trimLines_ne_nil hM hlastM
    rw [← hT] at hd
    exact hd drop_length

end Located

end Bertos
