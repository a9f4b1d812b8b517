import Bertos.Lib.Bits
import Bertos.Mware.IniReader

/-!
# The text of an ini file

`WellFormed f` is the grammar: the lines of `f` are blank, headers `[name]` or assignments `key=value`. `RawLines f ls`
gives the lines as `kfile_gets` cuts them, in which a long blank line is several ones; `fullLines ls` are those that
are not blank, and `lookup` is their meaning. An assignment may be put behind the header of its section
(`lookup_insert`), and a new section at the end (`lookup_append_section`), without a change to the other keys.
-/

namespace Bertos

open List

/-! ## Lines -/

def Blank (t : List UInt8) : Prop := t.all isspace = true

instance (t : List UInt8) : Decidable (Blank t) := inferInstanceAs (Decidable (_ = _))

/-- A header `[name]`. -/
def header (name : List UInt8) : List UInt8 := chOpen :: name ++ [chClose]

/-- An assignment `key=value`. -/
def assignment (key value : List UInt8) : List UInt8 := key ++ chEq :: value

/-- The line is text, as a string can hold it. -/
def TextLine (t : List UInt8) : Prop := ∀ c ∈ t, c ≠ 0 ∧ c ≠ chCr ∧ c ≠ chLf

instance (t : List UInt8) : Decidable (TextLine t) := List.decidableBAll _ t

/-- A line that is not blank: a header or an assignment that fits in the line buffer. -/
structure IniLine (t : List UInt8) : Prop where
  text : TextLine t
  short : t.length < iniMaxLineLen
  form : (∃ name, chClose ∉ name ∧ t = header name) ∨ ∃ key value, key.head? ≠ some chOpen ∧ t = assignment key value

/-- The lines of a file, cut at carriage returns and line feeds; the last one is not terminated. -/
def splitLines : List UInt8 → List (List UInt8)
  | [] => [[]]
  | c :: cs =>
    if c = chCr ∨ c = chLf then [] :: splitLines cs
    else
      match splitLines cs with
      | [] => [[c]]
      | l :: ls => (c :: l) :: ls

structure WellFormed (f : List UInt8) : Prop where
  lines : ∀ t ∈ splitLines f, Blank t ∨ IniLine t
  last : ∀ t ∈ (splitLines f).getLast?, Blank t

/-- The name of a section or a key: 1 to 29 letters, digits or underscores. -/
def nameChar (c : UInt8) : Bool := (48 ≤ c && c ≤ 57) || (65 ≤ c && c ≤ 90) || (97 ≤ c && c ≤ 122) || c == 95

structure IsName (name : List UInt8) : Prop where
  chars : ∀ c ∈ name, nameChar c = true
  nonempty : name ≠ []
  short : name.length ≤ 29

/-- A value that fits in one line with its key. -/
structure IsValue (key value : List UInt8) : Prop where
  text : TextLine value
  first : ∀ c ∈ value.head?, isspace c = false
  short : (assignment key value).length < iniMaxLineLen

/-! ## The meaning of a list of lines -/

/-- The key of a line, as far as `getKey` can hold it. -/
def textKey (t : List UInt8) : List UInt8 :=
  ((t.dropWhile isspace).takeWhile fun c => c ≠ chEq && !isspace c).take 29

def textValue (t : List UInt8) : List UInt8 := ((t.dropWhile (· ≠ chEq)).drop 1).dropWhile isspace

/-- The value of a key in the lines of a section, which ends at the next header. -/
def lookupKey (key : List UInt8) : List (List UInt8) → Option (List UInt8)
  | [] => none
  | t :: ts =>
    if textKey t = key then some (textValue t)
    else if t.head? = some chOpen then none
    else lookupKey key ts

/-- The value of a key in the first section of a name. -/
def lookup (name key : List UInt8) : List (List UInt8) → Option (List UInt8)
  | [] => none
  | t :: ts => if t = header name then lookupKey key ts else lookup name key ts

section Lookup

variable {name key : List UInt8}

theorem nameChar_facts : ∀ c : UInt8, nameChar c = true →
    c ≠ 0 ∧ c ≠ chCr ∧ c ≠ chLf ∧ c ≠ chOpen ∧ c ≠ chClose ∧ c ≠ chEq ∧ isspace c = false :=
  forall_uint8 (by decide +kernel)

theorem IsName.text (h : IsName name) : TextLine name := fun c hc =>
  have hf := nameChar_facts c (h.chars c hc)
  ⟨hf.1, hf.2.1, hf.2.2.1⟩

theorem IsName.not_close (h : IsName name) : chClose ∉ name := fun hc =>
  (nameChar_facts _ (h.chars _ hc)).2.2.2.2.1 rfl

variable {t : List UInt8}

theorem IsName.ne_textKey_open (h : IsName key) (ht : t.head? = some chOpen) : textKey t ≠ key := by
  intro hk
  obtain ⟨c, cs, rfl⟩ : ∃ c cs, t = c :: cs := by
    cases t with
    | nil => cases ht
    | cons c cs => exact ⟨c, cs, rfl⟩
  obtain rfl : c = chOpen := by simpa using ht
  have hmem : chOpen ∈ key := by
    rw [← hk]
    simp [textKey, isspace, chOpen, chSpace, chEq]
  exact (nameChar_facts _ (h.chars _ hmem)).2.2.2.1 rfl

theorem IsName.textKey_assignment (h : IsName key) (value : List UInt8) : textKey (assignment key value) = key := by
  have hd : (assignment key value).dropWhile isspace = assignment key value := by
    obtain ⟨c, cs, rfl⟩ := exists_cons_of_ne_nil h.nonempty
    have hc := (nameChar_facts c (h.chars c (by simp))).2.2.2.2.2.2
    simp [assignment, hc]
  have ht : (assignment key value).takeWhile (fun c => c ≠ chEq && !isspace c) = key := by
    rw [assignment, takeWhile_append_of_pos]
    · simp
    · intro c hc
      have hf := nameChar_facts c (h.chars c hc)
      simp [hf.2.2.2.2.2.1, hf.2.2.2.2.2.2]
  rw [textKey, hd, ht, take_of_length_le h.short]

theorem IsName.textValue_eq (h : IsName key) (v : List UInt8) : textValue (assignment key v) = v.dropWhile isspace := by
  have hd : (assignment key v).dropWhile (· ≠ chEq) = chEq :: v := by
    rw [assignment, dropWhile_append_of_pos]
    · simp
    · intro c hc
      simpa using (nameChar_facts c (h.chars c hc)).2.2.2.2.2.1
  rw [textValue, hd]
  rfl

theorem IsName.textValue_assignment (h : IsName key) {value : List UInt8} (hv : ∀ c ∈ value.head?, isspace c = false) :
    textValue (assignment key value) = value := by
  rw [h.textValue_eq]
  cases value with
  | nil => rfl
  | cons c cs => rw [dropWhile_cons, hv c rfl]; rfl

theorem length_textKey_le (t : List UInt8) : (textKey t).length ≤ t.length :=
  ((take_sublist _ _).trans ((takeWhile_sublist _).trans (dropWhile_sublist _))).length_le

theorem IsName.assignment_head (h : IsName key) (value : List UInt8) : (assignment key value).head? ≠ some chOpen := by
  obtain ⟨c, cs, rfl⟩ := exists_cons_of_ne_nil h.nonempty
  have hc := (nameChar_facts c (h.chars c (by simp))).2.2.2.1
  simpa [assignment] using hc

theorem header_head (name : List UInt8) : (header name).head? = some chOpen := rfl

theorem header_inj {name name' : List UInt8} (h : header name = header name') : name = name' := by
  simpa [header] using h

theorem ne_header (h : t.head? ≠ some chOpen) (name : List UInt8) : t ≠ header name :=
  fun he => h (by rw [he]; rfl)

/-! ### Changes that do not matter -/

theorem lookupKey_nil_header (h : IsName key) (name : List UInt8) (after : List (List UInt8)) :
    ∀ ts : List (List UInt8), lookupKey key (ts ++ header name :: after) = lookupKey key ts
  | [] => by
    have hk := h.ne_textKey_open (header_head name)
    simp [lookupKey, hk, header_head]
  | t :: ts => by simp only [cons_append, lookupKey, lookupKey_nil_header h name after ts]

theorem lookupKey_skip (ht : t.head? ≠ some chOpen) (hk : textKey t ≠ key) (after : List (List UInt8)) :
    ∀ ts : List (List UInt8), lookupKey key (ts ++ t :: after) = lookupKey key (ts ++ after)
  | [] => by simp [lookupKey, hk, ht]
  | u :: ts => by simp only [cons_append, lookupKey, lookupKey_skip ht hk after ts]

theorem lookup_skip (after : List (List UInt8)) : ∀ ts : List (List UInt8), (∀ t ∈ ts, t ≠ header name) →
    lookup name key (ts ++ after) = lookup name key after
  | [], _ => rfl
  | t :: ts, h => by
    rw [cons_append, lookup, if_neg (h t (by simp))]
    exact lookup_skip after ts fun u hu => h u (by simp [hu])

/-- **An assignment behind its header**, with no header between, does not matter to another pair of names. -/
theorem lookup_insert {name' key' t : List UInt8} (h' : IsName key') (ht : t.head? ≠ some chOpen)
    (hk : textKey t = key) (hne : ¬ (name' = name ∧ key' = key)) {mid : List (List UInt8)}
    (hm : ∀ u ∈ mid, u.head? ≠ some chOpen) (after : List (List UInt8)) : ∀ before : List (List UInt8),
    lookup name' key' (before ++ header name :: mid ++ t :: after) =
      lookup name' key' (before ++ header name :: mid ++ after)
  | [] => by
    by_cases hn : name' = name
    · subst hn
      have hk' : textKey t ≠ key' := fun he => hne ⟨rfl, by rw [← he, hk]⟩
      simp only [nil_append, cons_append, lookup, if_true]
      exact lookupKey_skip ht hk' after mid
    · have hh : header name ≠ header name' := fun he => hn (header_inj he).symm
      have hmid : ∀ u ∈ mid, u ≠ header name' := fun u hu => ne_header (hm u hu) name'
      simp only [nil_append, cons_append, lookup, if_neg hh]
      rw [lookup_skip _ mid hmid, lookup_skip _ mid hmid, lookup, if_neg (ne_header ht name')]
  | u :: before => by
    simp only [cons_append, lookup]
    by_cases hu : u = header name'
    · rw [if_pos hu, if_pos hu]
      simp only [append_assoc, cons_append, lookupKey_nil_header h' name]
    · rw [if_neg hu, if_neg hu]
      exact lookup_insert h' ht hk hne hm after before

theorem lookup_end (h' : IsName key) (name' : List UInt8) : ∀ ts : List (List UInt8),
    lookup name key (ts ++ [header name']) = lookup name key ts
  | [] => by simp [lookup, lookupKey]
  | u :: ts => by simp only [cons_append, lookup, lookupKey_nil_header h' name', lookup_end h' name' ts]

/-- **A new section** at the end does not matter to another pair of names. -/
theorem lookup_append_section {name' key' t : List UInt8} (h' : IsName key') (ht : t.head? ≠ some chOpen)
    (hk : textKey t = key) (hne : ¬ (name' = name ∧ key' = key)) (ts : List (List UInt8)) :
    lookup name' key' (ts ++ [header name, t]) = lookup name' key' ts := by
  have hinsert := lookup_insert h' ht hk hne (forall_mem_nil _) [] ts
  simp only [append_assoc, cons_append, nil_append] at hinsert
  rw [hinsert, lookup_end h']

section
variable {before mid : List (List UInt8)} (hb : ∀ u ∈ before, u ≠ header name)
  (hm : ∀ u ∈ mid, textKey u ≠ key ∧ u.head? ≠ some chOpen)
include hb hm

theorem lookup_section (after : List (List UInt8)) :
    lookup name key (before ++ header name :: mid ++ after) = lookupKey key after := by
  rw [append_assoc, lookup_skip _ before hb, cons_append, lookup, if_pos rfl]
  induction mid with
  | nil => rfl
  | cons u mid ih =>
    obtain ⟨h1, h2⟩ := hm u (by simp)
    rw [cons_append, lookupKey, if_neg h1, if_neg h2]
    exact ih fun v hv => hm v (by simp [hv])

theorem lookup_found (hk : textKey t = key) (after : List (List UInt8)) :
    lookup name key (before ++ header name :: mid ++ t :: after) = some (textValue t) := by
  rw [lookup_section hb hm, lookupKey, if_pos hk]

theorem lookup_none {after : List (List UInt8)} (hk : IsName key) (ha : ∀ u ∈ after.head?, u.head? = some chOpen) :
    lookup name key (before ++ header name :: mid ++ after) = none := by
  rw [lookup_section hb hm]
  cases after with
  | nil => rfl
  | cons u after =>
    have hu : u.head? = some chOpen := ha u rfl
    rw [lookupKey, if_neg (hk.ne_textKey_open hu), if_pos hu]

end

end Lookup

/-! ## The lines as they are read -/

/-- A line as `kfile_gets` returns it, and the number of characters it takes. -/
structure RawLine where
  text : List UInt8
  len : ℕ

/-- The lines `kfile_gets` cuts a file into, up to the one that meets the end. -/
inductive RawLines : List UInt8 → List RawLine → Prop
  | eof {f t n} (h : getsText (iniMaxLineLen - 1) f = (t, n, true)) : RawLines f [⟨t, n⟩]
  | more {f t n ls} (h : getsText (iniMaxLineLen - 1) f = (t, n, false)) (hl : RawLines (f.drop n) ls) :
      RawLines f (⟨t, n⟩ :: ls)

def rawLen : List RawLine → ℕ
  | [] => 0
  | l :: ls => l.len + rawLen ls

/-- What a file says: its lines that are not blank. -/
def fullLines (ls : List RawLine) : List (List UInt8) := (ls.map RawLine.text).filter fun t => !t.all isspace

section Gets

theorem getsText_length (room : ℕ) : ∀ (f : List UInt8), (getsText room f).1.length ≤ room ∧
    (getsText room f).2.1 ≤ f.length ∧ ((getsText room f).2.2 = false → 0 < (getsText room f).2.1) ∧
    ((getsText room f).2.2 = true → (getsText room f).2.1 = f.length) := by
  intro f
  fun_induction getsText room f with
  | case1 | case2 | case3 => simp
  | case4 c cs hl room ih =>
    obtain ⟨h1, h2, h3, h4⟩ := ih
    simp only [length_cons]
    exact ⟨by omega, by omega, fun _ => by omega, fun he => by rw [h4 he]⟩

def isEol (c : UInt8) : Bool := c == chCr || c == chLf

/-- The text of a line is what comes before its end, as far as the buffer goes. -/
theorem getsText_text (room : ℕ) (f : List UInt8) :
    (getsText room f).1 = (f.takeWhile fun c => !isEol c).take room := by
  fun_induction getsText room f with
  | case1 => simp
  | case2 _ c cs hl =>
    have hc : isEol c = true := by simpa [isEol] using hl
    simp [hc]
  | case3 => simp
  | case4 c cs hl room ih =>
    have hc : isEol c = false := by simpa [isEol] using hl
    simp [hc, ih]

theorem getsText_eol {c : UInt8} (hc : c = chCr ∨ c = chLf) (room : ℕ) (g : List UInt8) :
    getsText room (c :: g) = ([], 1, false) := by
  cases room <;> simp [getsText, hc]

/-- A line that does not meet the end is read the same whatever follows it. -/
theorem getsText_append (g : List UInt8) (room : ℕ) : ∀ (f : List UInt8), (getsText room f).2.2 = false →
    getsText room (f.take (getsText room f).2.1 ++ g) = getsText room f := by
  intro f h
  fun_induction getsText room f with
  | case1 => simp at h
  | case2 _ c cs hl => exact getsText_eol hl ..
  | case3 c cs hl => simp [getsText, hl]
  | case4 c cs hl room ih =>
    rw [take_succ_cons, cons_append]
    simp only [getsText, hl, if_false, ih h]

theorem getsText_skip (g : List UInt8) : ∀ (room : ℕ) {t : List UInt8}, t.length ≤ room →
    (∀ x ∈ t, x ≠ chCr ∧ x ≠ chLf) →
    getsText room (t ++ g) = (t ++ (getsText (room - t.length) g).1, t.length + (getsText (room - t.length) g).2.1,
      (getsText (room - t.length) g).2.2)
  | _, [], _, _ => by simp
  | room + 1, x :: t, ht, hx => by
    have hx0 : ¬ (x = chCr ∨ x = chLf) := by
      have := hx x (by simp)
      tauto
    have ih := getsText_skip g room (Nat.le_of_succ_le_succ ht) fun y hy => hx y (by simp [hy])
    simp only [cons_append, getsText, hx0, if_false, ih, length_cons, Nat.add_sub_add_right, Nat.add_right_comm]

theorem getsText_line {c : UInt8} (hc : c = chCr ∨ c = chLf) (g : List UInt8) {room : ℕ} {t : List UInt8}
    (ht : t.length ≤ room) (hx : ∀ x ∈ t, x ≠ chCr ∧ x ≠ chLf) :
    getsText room (t ++ c :: g) = (t, t.length + 1, false) := by
  simp [getsText_skip _ room ht hx, getsText_eol hc]

end Gets

section Raw

variable {f : List UInt8} {ls A B : List RawLine}

theorem RawLines.exists (f : List UInt8) : ∃ ls, RawLines f ls := by
  induction hn : f.length using Nat.strongRecOn generalizing f with
  | ind n ih =>
    obtain ⟨-, h2, h3, -⟩ := getsText_length (iniMaxLineLen - 1) f
    rcases hg : getsText (iniMaxLineLen - 1) f with ⟨t, m, e⟩
    simp only [hg] at h2 h3
    cases e with
    | true => exact ⟨_, .eof hg⟩
    | false =>
      obtain ⟨ls, hl⟩ := ih (f.drop m).length (by rw [length_drop]; have := h3 rfl; omega) (f.drop m) rfl
      exact ⟨_, .more hg hl⟩

theorem RawLines.length_le (h : RawLines f ls) : ls.length ≤ f.length + 1 := by
  induction h with
  | eof h => simp
  | @more f t n ls h hl ih =>
    obtain ⟨-, h2, h3, -⟩ := getsText_length (iniMaxLineLen - 1) f
    rw [h] at h2 h3
    have hn : 0 < n := h3 rfl
    simp only [length_cons, length_drop] at ih h2 ⊢
    omega

theorem RawLines.unique {ls' : List RawLine} (h : RawLines f ls) (h' : RawLines f ls') : ls = ls' := by
  induction h generalizing ls' with
  | eof h =>
    cases h' with
    | eof h1 =>
      obtain ⟨rfl, rfl, -⟩ : _ ∧ _ ∧ true = true := by simpa using h.symm.trans h1
      rfl
    | more h1 _ => simpa using h.symm.trans h1
  | more h hl ih =>
    cases h' with
    | eof h1 => simpa using h.symm.trans h1
    | more h1 hl1 =>
      obtain ⟨rfl, rfl⟩ : _ ∧ _ := by simpa using h.symm.trans h1
      rw [ih hl1]

theorem RawLines.uncons {l : RawLine} (h : RawLines f (l :: ls)) (hne : ls ≠ []) :
    getsText (iniMaxLineLen - 1) f = (l.text, l.len, false) ∧ RawLines (f.drop l.len) ls := by
  cases h with
  | eof h => exact absurd rfl hne
  | more h hl => exact ⟨h, hl⟩

theorem RawLines.len_pos {l : RawLine} (h : RawLines f (l :: ls)) (hne : ls ≠ []) : 0 < l.len := by
  have hpos := (getsText_length (iniMaxLineLen - 1) f).2.2.1
  rw [(h.uncons hne).1] at hpos
  exact hpos rfl

theorem RawLines.ne_nil (h : RawLines f ls) : ls ≠ [] := by
  cases h <;> exact cons_ne_nil _ _

theorem rawLen_append (A B : List RawLine) : rawLen (A ++ B) = rawLen A + rawLen B := by
  induction A with
  | nil => simp [rawLen]
  | cons l A ih => simp [rawLen, ih, Nat.add_assoc]

theorem RawLines.rawLen_eq (h : RawLines f ls) : rawLen ls = f.length := by
  induction h with
  | @eof f t n h =>
    have := (getsText_length (iniMaxLineLen - 1) f).2.2.2
    rw [h] at this
    simpa [rawLen] using this rfl
  | @more f t n ls h hl ih =>
    have := (getsText_length (iniMaxLineLen - 1) f).2.1
    rw [h] at this
    simp only [rawLen, ih, length_drop] at this ⊢
    omega

theorem RawLines.drop (h : RawLines f (A ++ B)) (hB : B ≠ []) : RawLines (f.drop (rawLen A)) B := by
  induction A generalizing f with
  | nil => simpa [rawLen] using h
  | cons l A ih =>
    rw [rawLen, ← drop_drop]
    exact ih (h.uncons (append_ne_nil_of_right_ne_nil A hB)).2

theorem RawLines.append (h : RawLines f (A ++ B)) (hB : B ≠ []) {g : List UInt8} {C : List RawLine}
    (hg : RawLines g C) : RawLines (f.take (rawLen A) ++ g) (A ++ C) := by
  induction A generalizing f with
  | nil => simpa [rawLen] using hg
  | cons l A ih =>
    obtain ⟨hl, hrest⟩ := h.uncons (append_ne_nil_of_right_ne_nil A hB)
    have hlen := (getsText_length (iniMaxLineLen - 1) f).2.1
    have ha := fun g => getsText_append g (iniMaxLineLen - 1) f
    rw [hl] at hlen ha
    rw [rawLen, take_add, append_assoc]
    refine .more (ha _ rfl) ?_
    rw [drop_left' (length_take_of_le hlen)]
    exact ih hrest

variable {t : List UInt8}

theorem RawLines.cons (ht : t.length ≤ iniMaxLineLen - 1) (hx : ∀ x ∈ t, x ≠ chCr ∧ x ≠ chLf) {c : UInt8}
    (hc : c = chCr ∨ c = chLf) (h : RawLines f ls) : RawLines (t ++ c :: f) (⟨t, t.length + 1⟩ :: ls) := by
  refine .more (getsText_line hc f ht hx) ?_
  have hd : (t ++ c :: f).drop (t.length + 1) = f := by
    rw [append_cons, drop_left' (by simp)]
  rw [hd]
  exact h

theorem fullLines_append (A B : List RawLine) : fullLines (A ++ B) = fullLines A ++ fullLines B := by
  simp [fullLines]

/-! ### Well-formed files -/

/-- How the first line read meets the first line of the file: it is that line, or a part of it that fills the buffer. -/
theorem getsText_splitLines (room : ℕ) : ∀ f : List UInt8, ∃ p ps, splitLines f = p :: ps ∧
    (((getsText room f).2.2 = true ∧ (getsText room f).1 = p ∧ ps = []) ∨
      ((getsText room f).2.2 = false ∧ (getsText room f).1 = p ∧ ps ≠ [] ∧
        splitLines (f.drop (getsText room f).2.1) = ps) ∨
      ((getsText room f).2.2 = false ∧ (getsText room f).1 = p.take room ∧ room < p.length ∧
        splitLines (f.drop (getsText room f).2.1) = p.drop (room + 1) :: ps)) := by
  intro f
  induction f generalizing room with
  | nil => exact ⟨[], [], rfl, .inl (by simp [getsText])⟩
  | cons c cs ih =>
    by_cases hl : c = chCr ∨ c = chLf
    · obtain ⟨p, ps, hs, -⟩ := ih 0
      refine ⟨[], splitLines cs, by simp [splitLines, hl], .inr (.inl ?_)⟩
      cases room <;> simp [getsText, hl, hs]
    · cases room with
      | zero =>
        obtain ⟨p, ps, hs, -⟩ := ih 0
        refine ⟨c :: p, ps, by simp [splitLines, hl, hs], .inr (.inr ?_)⟩
        simp [getsText, hl, hs]
      | succ room =>
        obtain ⟨p, ps, hs, h⟩ := ih room
        refine ⟨c :: p, ps, by simp [splitLines, hl, hs], ?_⟩
        simpa [getsText, hl] using h

theorem Blank.take (h : Blank t) (n : ℕ) : Blank (t.take n) :=
  all_eq_true.mpr fun c hc => all_eq_true.mp h c (mem_of_mem_take hc)

theorem Blank.drop (h : Blank t) (n : ℕ) : Blank (t.drop n) :=
  all_eq_true.mpr fun c hc => all_eq_true.mp h c (mem_of_mem_drop hc)

section
variable {n : ℕ} (hw : WellFormed f) (h : getsText (iniMaxLineLen - 1) f = (t, n, false))
include hw h

/-- One line is read from a well-formed file: it is the first line, or a part of it if that is a long blank one. -/
theorem WellFormed.step : ∃ p ps, splitLines f = p :: ps ∧ ((t = p ∧ ps ≠ [] ∧ splitLines (f.drop n) = ps) ∨
      (Blank p ∧ t = p.take (iniMaxLineLen - 1) ∧ splitLines (f.drop n) = p.drop (iniMaxLineLen - 1 + 1) :: ps)) := by
  obtain ⟨p, ps, hs, hc⟩ := getsText_splitLines (iniMaxLineLen - 1) f
  rw [h] at hc
  refine ⟨p, ps, hs, ?_⟩
  obtain ⟨h', -⟩ | ⟨-, ht, hps, hrest⟩ | ⟨-, ht, hlong, hrest⟩ := hc
  · cases h'
  · exact .inl ⟨ht, hps, hrest⟩
  · refine .inr ⟨?_, ht, hrest⟩
    rcases hw.lines p (by simp [hs]) with hb | hi
    · exact hb
    · have := hi.short
      omega

/-- What follows in a well-formed file is well formed. -/
theorem WellFormed.rest : WellFormed (f.drop n) := by
  obtain ⟨p, ps, hs, ⟨-, hps, hrest⟩ | ⟨hb, -, hrest⟩⟩ := hw.step h
  · refine ⟨fun u hu => ?_, fun u hu => ?_⟩
    · rw [hrest] at hu
      exact hw.lines u (by simp [hs, hu])
    · rw [hrest] at hu
      exact hw.last u (by rwa [hs, getLast?_cons_of_ne_nil hps])
  · refine ⟨fun u hu => ?_, fun u hu => ?_⟩
    · rw [hrest] at hu
      rcases mem_cons.mp hu with rfl | hu
      · exact .inl (hb.drop _)
      · exact hw.lines u (by simp [hs, hu])
    · rw [hrest] at hu
      cases ps with
      | nil =>
        obtain rfl : p.drop (iniMaxLineLen - 1 + 1) = u := by simpa using hu
        exact hb.drop _
      | cons q qs => exact hw.last u (by simpa [hs] using hu)

end

theorem WellFormed.drop (hw : WellFormed f) (h : RawLines f (A ++ B)) (hB : B ≠ []) :
    WellFormed (f.drop (rawLen A)) := by
  induction A generalizing f with
  | nil => simpa [rawLen] using hw
  | cons l A ih =>
    obtain ⟨hl, hrest⟩ := h.uncons (append_ne_nil_of_right_ne_nil A hB)
    rw [rawLen, ← drop_drop]
    exact ih (hw.rest hl) hrest

/-- The lines read from a well-formed file are well formed, and the last one is blank. -/
theorem WellFormed.raw (h : RawLines f ls) (hw : WellFormed f) :
    (∀ l ∈ ls, Blank l.text ∨ IniLine l.text) ∧ ∀ l ∈ ls.getLast?, Blank l.text := by
  induction h with
  | @eof f t n h =>
    obtain ⟨p, ps, hs, hc⟩ := getsText_splitLines (iniMaxLineLen - 1) f
    rw [h] at hc
    obtain ⟨-, rfl, rfl⟩ | ⟨h', -⟩ | ⟨h', -⟩ := hc
    · have hb := hw.last t (by simp [hs])
      exact ⟨by simpa using .inl hb, by simpa using hb⟩
    · cases h'
    · cases h'
  | @more f t n ls h hl ih =>
    have ht : Blank t ∨ IniLine t := by
      obtain ⟨p, ps, hs, ⟨rfl, -, -⟩ | ⟨hb, rfl, -⟩⟩ := hw.step h
      · exact hw.lines t (by simp [hs])
      · exact .inl (hb.take _)
    obtain ⟨h1, h2⟩ := ih (hw.rest h)
    refine ⟨forall_mem_cons.mpr ⟨ht, h1⟩, ?_⟩
    rwa [getLast?_cons_of_ne_nil hl.ne_nil]

theorem blank_of_splitLines : ∀ f : List UInt8, (∀ t ∈ splitLines f, Blank t) → Blank f
  | [], _ => rfl
  | x :: f, h => by
    have ih := blank_of_splitLines f
    have hcons : ∀ {s}, Blank (x :: s) ↔ isspace x = true ∧ Blank s := by simp [Blank]
    by_cases hx : x = chCr ∨ x = chLf
    · rw [splitLines, if_pos hx] at h
      exact hcons.mpr ⟨by rcases hx with rfl | rfl <;> decide, ih fun t ht => h t (by simp [ht])⟩
    · obtain ⟨p, ps, hs, -⟩ := getsText_splitLines 0 f
      have hsplit : splitLines (x :: f) = (x :: p) :: ps := by simp [splitLines, hx, hs]
      rw [hsplit, forall_mem_cons, hcons] at h
      rw [hs, forall_mem_cons] at ih
      exact hcons.mpr ⟨h.1.1, ih ⟨h.1.2, h.2⟩⟩

/-- Lines without text make a file without text. -/
theorem WellFormed.blank (hr : RawLines f ls) (hw : WellFormed f) (hb : ∀ l ∈ ls, Blank l.text) : Blank f := by
  have hsplit : ∀ t ∈ splitLines f, Blank t := by
    induction hr with
    | @eof f t n h =>
      obtain ⟨p, ps, hs, hc⟩ := getsText_splitLines (iniMaxLineLen - 1) f
      rw [h] at hc
      obtain ⟨-, rfl, rfl⟩ | ⟨h', -⟩ | ⟨h', -⟩ := hc
      · rw [hs]
        simpa using hb
      · cases h'
      · cases h'
    | @more f t n ls h hl ih =>
      have ih' := ih (hw.rest h) fun l hl' => hb l (by simp [hl'])
      obtain ⟨p, ps, hs, ⟨rfl, -, hrest⟩ | ⟨hp, -, hrest⟩⟩ := hw.step h
      · rw [hrest] at ih'
        rw [hs]
        simpa using ⟨hb _ (mem_cons_self ..), ih'⟩
      · rw [hrest] at ih'
        rw [hs]
        simpa using ⟨hp, fun u hu => ih' u (by simp [hu])⟩
  exact blank_of_splitLines f hsplit

theorem RawLines.blank (hr : RawLines f ls) (hb : Blank f) : ∀ l ∈ ls, Blank l.text := by
  have hgets : ∀ f : List UInt8, Blank f → Blank (getsText (iniMaxLineLen - 1) f).1 := fun f hb =>
    all_eq_true.mpr fun c hc => all_eq_true.mp hb c <| by
      rw [getsText_text] at hc
      exact takeWhile_subset _ (mem_of_mem_take hc)
  induction hr with
  | @eof f t n h =>
    have ht := hgets f hb
    rw [h] at ht
    simpa using ht
  | @more f t n ls h hl ih =>
    have ht := hgets f hb
    rw [h] at ht
    simpa using ⟨ht, ih (hb.drop n)⟩

end Raw

end Bertos
