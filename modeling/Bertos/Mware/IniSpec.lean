import Bertos.Mware.IniFind

/-!
# Setting a key

A lookup in a file is a `lookup` in its lines (`iniGetString_spec`), and `iniSetString_spec` says what `ini_setString`
writes and when it reports success. So if the text fits, the key gets its value and every other key keeps its own
(`iniSetString_updates`). If not, the call may still report success: `iniSetString_sound` says when it does not.
-/

namespace Bertos

open List FileSt

/-! ## Readable files -/

/-- Lines of which no scan sees more than the text, in which every key has an equals sign. -/
structure Readable (ls : List RawLine) : Prop where
  tame : ∀ l ∈ ls, Tame l.text
  eq : ∀ l ∈ ls, Blank l.text ∨ l.text.head? = some chOpen ∨ chEq ∈ l.text

section Readable

variable {f t : List UInt8} {ls : List RawLine}

theorem Blank.tame (h : Blank t) (hl : t.length ≤ iniMaxLineLen - 1) : Tame t where
  nonul := by
    rintro c hc rfl
    exact absurd (all_eq_true.mp h 0 hc) (by decide)
  short := hl
  header := by
    intro ho
    exact absurd (all_eq_true.mp h chOpen (mem_of_mem_head? ho)) (by decide)

theorem IniLine.tame (h : IniLine t) : Tame t where
  nonul := fun c hc => (h.text c hc).1
  short := Nat.le_sub_one_of_lt h.short
  header := by
    intro ho
    rcases h.form with hname | ⟨key, value, hk, rfl⟩
    · exact .inl hname
    · cases key with
      | nil => exact absurd ho (by simp [assignment, chEq, chOpen])
      | cons c cs => exact absurd ho hk

theorem IniLine.eq (h : IniLine t) : t.head? = some chOpen ∨ chEq ∈ t := by
  rcases h.form with ⟨name, -, rfl⟩ | ⟨key, value, -, rfl⟩
  · exact .inl rfl
  · exact .inr (by simp [assignment])

theorem RawLines.readable (hr : RawLines f ls) (hlines : ∀ l ∈ ls, Blank l.text ∨ IniLine l.text) : Readable ls := by
  constructor
  · intro l hl
    rcases hlines l hl with hb | hi
    · exact hb.tame (hr.short l hl)
    · exact hi.tame
  · intro l hl
    rcases hlines l hl with hb | hi
    · exact .inl hb
    · exact .inr hi.eq

theorem WellFormed.readable (h : WellFormed f) (hr : RawLines f ls) : Readable ls :=
  hr.readable (h.raw hr).1

theorem Readable.eq_of_key (h : Readable ls) {key : List UInt8} (hk : IsName key) :
    ∀ l ∈ ls, textKey l.text = key → chEq ∈ l.text := by
  intro l hl hkey
  rcases h.eq l hl with hb | ho | he
  · exact absurd (by rw [← hkey, hb.textKey]) hk.nonempty
  · exact absurd hkey (hk.ne_textKey_open ho)
  · exact he

end Readable

/-! ## The meaning of the change -/

/-- The lines that `ini_setString` puts in the place of the old one. -/
def newLines (sectionFound : Bool) (name key value : List UInt8) : List (List UInt8) :=
  if sectionFound then [assignment key value] else [header name, assignment key value]

section Meaning

variable {name key value : List UInt8} {ls : List RawLine} {e : Edit}

theorem fullLines_cons_of_not_blank {l : RawLine} (h : ¬ Blank l.text) (ls : List RawLine) :
    fullLines (l :: ls) = l.text :: fullLines ls := by
  have hb : (!l.text.all isspace) = true := by simpa [Blank] using h
  simp only [fullLines, map_cons, filter_cons, hb, if_true]

theorem fullLines_blank (h : ∀ l ∈ ls, Blank l.text) : fullLines ls = [] := by
  rw [fullLines, filter_eq_nil_iff]
  intro t ht
  obtain ⟨l, hl, rfl⟩ := mem_map.mp ht
  simpa [Blank] using h l hl

theorem forall_fullLines {p : List UInt8 → Prop} (h : ∀ l ∈ ls, p l.text) : ∀ t ∈ fullLines ls, p t := by
  intro t ht
  obtain ⟨l, hl, rfl⟩ := mem_map.mp (mem_filter.mp ht).1
  exact h l hl

theorem IsName.not_blank (hk : IsName key) {t : List UInt8} (h : textKey t = key) : ¬ Blank t :=
  fun hb => hk.nonempty (by rw [← h, hb.textKey])

theorem IsName.head_ne (hk : IsName key) {t : List UInt8} (h : textKey t = key) : t.head? ≠ some chOpen :=
  fun ho => hk.ne_textKey_open ho h

theorem fullLines_section {A M : List RawLine} {s : RawLine} (hs : s.text = header name) :
    fullLines (A ++ s :: M) = fullLines A ++ header name :: fullLines M := by
  rw [fullLines_append, fullLines_cons_of_not_blank (hs ▸ not_blank_header name), hs]

section
variable (h : Located name key ls e) (hk : IsName key)
include h hk

/-- The old value is that of the line replaced. -/
theorem Located.lookup_old : lookup name key (fullLines ls) = e.old.head?.map fun l => textValue l.text := by
  cases h with
  | @noSection P R hls hP _ hR =>
    rw [hls, fullLines_append, fullLines_blank hR, lookup_skip _ _ (forall_fullLines hP)]
    rfl
  | @found A M R s l hls hA hs hM hl =>
    rw [hls, fullLines_append, fullLines_section hs, fullLines_cons_of_not_blank (hk.not_blank hl),
      lookup_found (forall_fullLines hA) (forall_fullLines hM) hl]
    rfl
  | @noKey A M B R s hls hA hs hM _ hB hR =>
    rw [hls, fullLines_append, fullLines_section hs, fullLines_append, fullLines_blank hB,
      lookup_none (forall_fullLines hA) (forall_fullLines hM) hk]
    · rfl
    · cases R with
      | nil => simp [fullLines]
      | cons r R =>
        have hr : r.text.head? = some chOpen := hR r rfl
        have hb : ¬ Blank r.text := fun hb => by
          have := all_eq_true.mp hb chOpen (mem_of_mem_head? hr)
          revert this
          decide
        rw [fullLines_cons_of_not_blank hb]
        simpa using hr

theorem Located.lookup_new (hv : ∀ c ∈ value.head?, isspace c = false) :
    lookup name key (fullLines e.before ++ newLines e.sectionFound name key value ++ fullLines e.after) =
      some value := by
  have hkey := hk.textKey_assignment value
  have hval := hk.textValue_assignment hv
  cases h with
  | @noSection P R _ hP _ hR =>
    have hf : lookup name key (fullLines P ++ header name :: [] ++ assignment key value :: []) = _ :=
      lookup_found (forall_fullLines hP) (by simp) hkey []
    rw [hval] at hf
    simpa [newLines, fullLines_blank hR] using hf
  | found _ hA hs hM | noKey _ hA hs hM =>
    rw [fullLines_section hs, append_assoc, newLines, if_pos rfl, cons_append, nil_append,
      lookup_found (forall_fullLines hA) (forall_fullLines hM) hkey, hval]

/-- Every other key keeps its value. -/
theorem Located.lookup_other (value : List UInt8) {name' key' : List UInt8}
    (hk' : IsName key') (hne : ¬ (name' = name ∧ key' = key)) :
    lookup name' key' (fullLines e.before ++ newLines e.sectionFound name key value ++ fullLines e.after) =
      lookup name' key' (fullLines ls) := by
  have hkey := hk.textKey_assignment value
  have hhead := hk.assignment_head value
  cases h with
  | @noSection P R hls hP _ hR =>
    have ha := lookup_append_section hk' hhead hkey hne (fullLines P)
    rw [hls, fullLines_append, fullLines_blank hR]
    simpa [newLines] using ha
  | @found A M R s l hls hA hs hM hl =>
    have hm : ∀ t ∈ fullLines M, t.head? ≠ some chOpen := forall_fullLines fun m hm => (hM m hm).2
    have hnew := lookup_insert hk' hhead hkey hne hm (fullLines R) (fullLines A)
    have hold := lookup_insert hk' (hk.head_ne hl) hl hne hm (fullLines R) (fullLines A)
    have hfull : fullLines ls = fullLines A ++ header name :: fullLines M ++ l.text :: fullLines R := by
      rw [hls, fullLines_append, fullLines_section hs, fullLines_cons_of_not_blank (hk.not_blank hl)]
    rw [hfull, hold, ← hnew]
    simp [newLines, fullLines_section hs]
  | @noKey A M B R s hls hA hs hM _ hB hR =>
    have hm : ∀ t ∈ fullLines M, t.head? ≠ some chOpen := forall_fullLines fun m hm => (hM m hm).2
    have hnew := lookup_insert hk' hhead hkey hne hm (fullLines (B ++ R)) (fullLines A)
    have hfull : fullLines ls = fullLines A ++ header name :: fullLines M ++ fullLines (B ++ R) := by
      rw [hls, fullLines_append, fullLines_section hs]
    rw [hfull, ← hnew]
    simp [newLines, fullLines_section hs]

end

end Meaning

/-! ## Looking a key up -/

/-- What `ini_getString` answers: the value or the default, as far as it fits in the buffer. -/
def getResult (defaultValue : List UInt8) (size : ℕ) : Option (List UInt8) → Bool × List UInt8
  | some v => (true, v.take (size - 1))
  | none => (false, defaultValue.take (size - 1))

section Get

variable {W α : Type} {fd : KFile W} {st : W → FileSt} {fr : W → α} {name key : List UInt8}

theorem iniGetString_eq (name key defaultValue : List UInt8) (size : ℕ) (stack : ℕ → UInt8) {w w' : W} {sf kf : Bool}
    {line : ℕ → UInt8} (h : iniFind fd name key stack (fd.seek w 0) = (sf, kf, line, w')) :
    iniGetString fd name key defaultValue size stack w =
      (if sf && kf then (true, getValue line size) else (false, defaultValue.take (size - 1)), w') := by
  simp only [iniFind] at h
  rcases hs : findSection fd name stack (fd.seek w 0) with ⟨_ | _, line1, w1⟩
  · simp only [hs] at h
    cases h
    simp only [iniGetString, hs]
    rfl
  · simp only [hs] at h
    cases h
    simp only [iniGetString, hs]
    rcases findKey fd key line1 w1 with ⟨_ | _, line2, w2⟩ <;> rfl

theorem Located.old_eq {ls : List RawLine} {e : Edit} (h : Located name key ls e) :
    (e.sectionFound && e.keyFound) = e.old.head?.isSome := by
  cases h <;> rfl

/-- **Looking a key up** in a file is looking it up in the lines. -/
theorem iniGetString_spec (h : FixedFile fd st fr) (hn : IsName name) (hk : IsName key) {ls : List RawLine} {w : W}
    (hr : RawLines (st w).data ls) (hls : ∀ l ∈ ls, Tame l.text) (heq : ∀ l ∈ ls, textKey l.text = key → chEq ∈ l.text)
    (defaultValue : List UInt8) (size : ℕ) (stack : ℕ → UInt8) :
    ∃ w', iniGetString fd name key defaultValue size stack w =
        (getResult defaultValue size (lookup name key (fullLines ls)), w') ∧
      (st w').data = (st w).data ∧ fr w' = fr w := by
  obtain ⟨hs0, hf0⟩ := h.seek w 0
  have hr0 : RawLines (st (fd.seek w 0)).rest ls := by
    rw [hs0]
    exact hr
  obtain ⟨line', w', he, hs, hf, hold⟩ := iniFind_spec h hn.sectionName (fun _ => hk.nonempty) hr0 hls stack
  have hloc := locate_located name key ls
  refine ⟨w', ?_, by rw [hs, hs0]; rfl, hf.trans hf0⟩
  rw [iniGetString_eq name key defaultValue size stack he, hloc.old_eq, hloc.lookup_old hk]
  cases ho : (locate name key ls).old with
  | nil => rfl
  | cons l old =>
    have hmem : l ∈ (locate name key ls).old := by simp [ho]
    have hl : l ∈ ls := by
      rw [hloc.append]
      simp [ho]
    have hkey : textKey l.text = key := by
      generalize locate name key ls = e at hloc ho
      cases hloc with
      | found _ _ _ _ hk => rwa [← (cons.inj ho).1]
      | noSection | noKey => cases ho
    rw [(hold l hmem).getValue (heq l hl hkey)]
    rfl

end Get

/-! ## Setting a key -/

/-- The text that `ini_setString` prints. -/
def newText (sectionFound : Bool) (name key value : List UInt8) : List UInt8 :=
  if sectionFound then keyText key value else sectionText name ++ keyText key value

/-- What `ini_setString` writes, without the padding. -/
def Edit.text (e : Edit) (name key value f : List UInt8) : List UInt8 :=
  f.take (rawLen e.before) ++ newText e.sectionFound name key value ++ f.drop (rawLen e.before + rawLen e.old)

/-- The characters that must be copied behind the new text. -/
def Edit.needed (e : Edit) : ℕ := rawLen (trimLines e.after)

/-- The size of the text up to its last line that is not blank. -/
def Edit.size (e : Edit) (name key value : List UInt8) : ℕ :=
  rawLen e.before + (newText e.sectionFound name key value).length + e.needed

def padding (n : ℕ) : List UInt8 := (chLf :: List.replicate n chSpace).take n

section Set

variable {W α : Type} {inp out : KFile W} {ss sd : W → FileSt} {fr : W → α} {name key value : List UInt8}

theorem length_padding (n : ℕ) : (padding n).length = n := by simp [padding]

theorem take_padding {m n : ℕ} (h : m ≤ n) : (padding n).take m = padding m := by
  cases m with
  | zero => rfl
  | succ m =>
    cases n with
    | zero => omega
    | succ n =>
      simp only [padding, take_succ_cons, take_replicate, Nat.min_eq_left, Nat.le_succ]
      congr 2
      omega

theorem FileSt.store_data {d bs : List UInt8} (h : d.length ≤ bs.length) :
    (FileSt.store ⟨d, 0⟩ bs).data = bs.take d.length := by
  simp [store, room, Nat.min_eq_right h]

theorem store_padded (d : List UInt8) (A B : List UInt8) {n : ℕ} (h : d.length - A.length - B.length = n - B.length) :
    (FileSt.store ⟨d, 0⟩ (A ++ (B ++ padding (n - B.length)))).data = (A ++ B ++ padding d.length).take d.length := by
  have hl : d.length ≤ (A ++ (B ++ padding (n - B.length))).length := by
    simp only [length_append, length_padding]
    omega
  rw [store_data hl, ← append_assoc, take_append, take_append, length_append, take_padding (by omega), take_append,
    take_append, length_append, take_padding (by omega)]

/-- A text that `%s` prints as a whole. -/
def Printable (s : List UInt8) : Prop := s.length ≤ 10000

theorem Printable.fmtString_eq {s : List UInt8} (h : Printable s) : fmtString s = s := take_of_length_le h

theorem IsName.printable (h : IsName name) : Printable name := Nat.le_trans h.short (by decide)

/-- The new lines are stored as far as there is room. -/
theorem iniPrint_spec (h : FixedFile out sd fr) (hn : Printable name) (hk : Printable key)
    (hv : Printable value) (sectionFound : Bool) (w : W) (hp : (sd w).pos ≤ (sd w).data.length) :
    ∃ w', iniPrint out name key (some value) sectionFound w = (true, w') ∧
      sd w' = (sd w).store (newText sectionFound name key value) ∧ fr w' = fr w := by
  have hlen : (keyText key value).length = key.length + value.length + 2 := by
    simp only [keyText, hk.fmtString_eq, hv.fmtString_eq, length_append, length_singleton]
    omega
  cases sectionFound with
  | true =>
    obtain ⟨w', he, hs, hf⟩ := kfilePrintf_spec h (keyText key value) w hp
    refine ⟨w', ?_, hs, hf⟩
    simp only [iniPrint, if_true, ne_eq, not_true_eq_false, if_false, he, hlen, beq_self_eq_true]
  | false =>
    have hlen0 : (sectionText name).length = name.length + 4 := by
      simp only [sectionText, hn.fmtString_eq, length_append, length_cons, length_nil]
      omega
    obtain ⟨w1, he1, hs1, hf1⟩ := kfilePrintf_spec h (sectionText name) w hp
    obtain ⟨w', he, hs, hf⟩ := kfilePrintf_spec h (keyText key value) w1 (by rw [hs1]; exact pos_store_le hp _)
    refine ⟨w', ?_, ?_, hf.trans hf1⟩
    · simp only [iniPrint, Bool.false_eq_true, if_false, he1, hlen0, ne_eq, not_true_eq_false, he, hlen,
        beq_self_eq_true]
    · rw [hs, hs1, store_store hp]
      rfl

/-- The wipe fills the file up to its end. -/
theorem iniWipe_spec (h : FixedFile out sd fr) (w : W) (hp : (sd w).pos ≤ (sd w).data.length) :
    ∃ w', iniWipe out w = (true, w') ∧ sd w' = (sd w).store (padding (sd w).room) ∧ fr w' = fr w := by
  have hroom : out.size w - out.seekPos w = (sd w).room := by
    rw [h.size, h.seekPos]
    rfl
  by_cases h0 : (sd w).room = 0
  · refine ⟨w, by simp only [iniWipe, hroom, h0, if_true], ?_, rfl⟩
    rw [h0]
    exact (store_nil hp).symm
  · obtain ⟨r, hr⟩ := Nat.exists_eq_succ_of_ne_zero h0
    obtain ⟨w1, he1, hs1, hf1⟩ := kfilePutc_spec h chLf w
    rw [decide_eq_true (Nat.pos_of_ne_zero h0)] at he1
    obtain ⟨w', he, hs, hf⟩ := kfileFill_spec h chSpace ((sd w).room - 1) w1 (by rw [hs1]; exact pos_store_le hp _)
      (by rw [hs1, room_store hp, length_singleton])
    refine ⟨w', ?_, ?_, hf.trans hf1⟩
    · simp only [iniWipe, hroom, h0, if_false, he1, he]
    · rw [hs, hs1, store_store hp, hr]
      simp [padding]

theorem rawLen_trimLines_le (ls : List RawLine) : rawLen (trimLines ls) ≤ rawLen ls := by
  obtain ⟨B, hls, -, -⟩ := exists_trimLines ls
  have hl := congrArg rawLen hls
  rw [rawLen_append] at hl
  omega

theorem skipOld_spec (h : FixedFile inp ss fr) {D R : List RawLine} {keyFound : Bool} {w : W}
    (hr : RawLines (ss w).rest (D ++ R)) (hD : (keyFound = false ∧ D = []) ∨ keyFound = true ∧ ∃ l, D = [l])
    (line : ℕ → UInt8) :
    ∃ x line' w', (if keyFound then kfileGets inp line iniMaxLineLen w else (none, line, w)) = (x, line', w') ∧
      ss w' = (ss w).advance (rawLen D) ∧ fr w' = fr w := by
  obtain ⟨rfl, rfl⟩ | ⟨rfl, l, rfl⟩ := hD
  · exact ⟨none, line, w, rfl, rfl, rfl⟩
  · obtain ⟨w', he, hs, hf, -⟩ := RawLines.gets h hr line
    exact ⟨_, _, w', he, hs, hf⟩

/-- What follows the place is copied, and the rest of the file is wiped out. -/
theorem iniCopyRest_spec (h : FilePair inp out ss sd fr) {D R : List RawLine} {keyFound : Bool} {w : W}
    (hr : RawLines (ss w).rest (D ++ R)) (hR : R ≠ []) (hls : ∀ l ∈ R, Tame l.text)
    (hD : (keyFound = false ∧ D = []) ∨ keyFound = true ∧ ∃ l, D = [l]) (hp : (sd w).pos ≤ (sd w).data.length)
    (line : ℕ → UInt8) :
    ∃ w', iniCopyRest inp out keyFound line w = (decide (rawLen (trimLines R) ≤ (sd w).room), w') ∧
      (ss w').data = (ss w).data ∧ fr w' = fr w ∧
      (rawLen (trimLines R) ≤ (sd w).room → sd w' = (sd w).store ((ss w).rest.drop (rawLen D) ++
        padding ((sd w).room - ((ss w).rest.drop (rawLen D)).length))) := by
  obtain ⟨x, line1, w1, he1, hs1, hf1⟩ := skipOld_spec h.src hr hD line
  obtain ⟨hd1, hf1⟩ := Prod.mk.inj hf1
  have hrest : (ss w1).rest = (ss w).rest.drop (rawLen D) := by rw [hs1, rest_advance]
  have hrR : RawLines (ss w1).rest R := by
    rw [hrest]
    exact hr.drop hR
  obtain ⟨w2, he2, hs2, hf2⟩ := findLastLine_spec h.src hrR hls line1
  obtain ⟨hd2, hf2⟩ := Prod.mk.inj hf2
  rw [lastFull_eq] at he2
  have hlen : inp.size w1 - inp.seekPos w1 = (ss w2).room := by
    rw [h.src.size, h.src.seekPos, hs2]
    rfl
  have hp2 : (sd w2).pos ≤ (sd w2).data.length := by rwa [hd2, hd1]
  obtain ⟨w3, he3, hs3, hdata3, -, hf3⟩ := kfileCopy_spec h (ss w2).room w2 (Nat.le_refl _) hp2
  rw [take_of_length_le (Nat.le_of_eq length_rest), hs2, hrest, hd2, hd1] at hs3
  have hneeded : (ss w1).pos + rawLen (trimLines R) - inp.seekPos w2 = rawLen (trimLines R) := by
    rw [h.src.seekPos, hs2]
    omega
  have hle : rawLen (trimLines R) ≤ (ss w2).room := by
    rw [hs2, ← length_rest, ← hrR.rawLen_eq]
    exact rawLen_trimLines_le R
  have hstart : iniCopyRest inp out keyFound line w =
      if rawLen (trimLines R) ≤ (sd w).room then iniWipe out w3 else (false, w3) := by
    simp only [iniCopyRest, he1, he2, hneeded, hlen, he3, hd2, hd1]
    by_cases hfit : rawLen (trimLines R) ≤ (sd w).room
    · rw [if_neg (by omega), if_pos hfit]
    · rw [if_pos (by omega), if_neg hfit]
  have hss : (ss w3).data = (ss w).data := by rw [hdata3, hs2, hs1]; rfl
  have hfr : fr w3 = fr w := by rw [hf3, hf2, hf1]
  by_cases hfit : rawLen (trimLines R) ≤ (sd w).room
  · obtain ⟨w', he, hs, hf⟩ := iniWipe_spec h.dst w3 (by rw [hs3]; exact pos_store_le hp _)
    obtain ⟨hd', hf'⟩ := Prod.mk.inj hf
    refine ⟨w', ?_, by rw [hd', hss], hf'.trans hfr, fun _ => ?_⟩
    · rw [hstart, if_pos hfit, he, decide_eq_true hfit]
    · rw [hs, hs3, room_store hp, store_store hp]
  · refine ⟨w3, ?_, hss, hfr, fun hc => absurd hc hfit⟩
    rw [hstart, if_neg hfit, decide_eq_false hfit]

theorem Located.old_cases {ls : List RawLine} {e : Edit} (h : Located name key ls e) :
    (e.keyFound = false ∧ e.old = []) ∨ e.keyFound = true ∧ ∃ l, e.old = [l] := by
  cases h with
  | noSection | noKey => exact .inl ⟨rfl, rfl⟩
  | found => exact .inr ⟨rfl, _, rfl⟩

/-- `ini_setString` reports success: what lies before the place fits, and behind the new text there is room for the
lines that are not blank. -/
def Edit.Reported (e : Edit) (name key value : List UInt8) (size : ℕ) : Prop :=
  rawLen e.before ≤ size ∧ e.needed ≤ size - (rawLen e.before + (newText e.sectionFound name key value).length)

instance (e : Edit) (name key value : List UInt8) (size : ℕ) : Decidable (e.Reported name key value size) :=
  inferInstanceAs (Decidable (_ ∧ _))

theorem FilePair.seek_src (h : FilePair inp out ss sd fr) (w : W) (p : ℕ) :
    ss (inp.seek w p) = ⟨(ss w).data, p⟩ ∧ sd (inp.seek w p) = sd w ∧ fr (inp.seek w p) = fr w :=
  ⟨(h.src.seek w p).1, Prod.mk.inj (h.src.seek w p).2⟩

theorem FilePair.seek_dst (h : FilePair inp out ss sd fr) (w : W) (p : ℕ) :
    sd (out.seek w p) = ⟨(sd w).data, p⟩ ∧ ss (out.seek w p) = ss w ∧ fr (out.seek w p) = fr w :=
  ⟨(h.dst.seek w p).1, Prod.mk.inj (h.dst.seek w p).2⟩

/-- **Setting a key**: what is reported, and what is in the file afterwards. -/
theorem iniSetString_spec (h : FilePair inp out ss sd fr) (hn : IsName name) (hk : Printable key) (hv : Printable value)
    {ls : List RawLine} {w : W} (hne : (locate name key ls).sectionFound = true → key ≠ [])
      (hr : RawLines (ss w).data ls)
    (hls : ∀ l ∈ ls, Tame l.text) (hlast : ∀ l ∈ ls.getLast?, Blank l.text) (stack : ℕ → UInt8) :
    ∃ w', iniSetString inp out name key (some value) stack w =
        (decide ((locate name key ls).Reported name key value (sd w).data.length), w') ∧
      (ss w').data = (ss w).data ∧ fr w' = fr w ∧
      ((locate name key ls).Reported name key value (sd w).data.length → (sd w').data =
        ((locate name key ls).text name key value (ss w).data ++ padding (sd w).data.length).take
          (sd w).data.length) := by
  have hloc := locate_located name key ls
  have hafter := hloc.after_ne_nil hne hr.ne_nil hlast
  have happ := hloc.append
  -- the search, from the start of the files
  obtain ⟨hi, hid, hif⟩ := h.seek_src w 0
  obtain ⟨ho, hos, hof⟩ := h.seek_dst (inp.seek w 0) 0
  rw [hi] at hos
  rw [hid] at ho
  have hr0 : RawLines (ss (out.seek (inp.seek w 0) 0)).rest ls := by
    rw [hos]
    exact hr
  obtain ⟨line, w1, he1, hs1, hf1, -⟩ := iniFind_spec h.src hn.sectionName hne hr0 hls stack
  obtain ⟨hd1, hf1⟩ := Prod.mk.inj hf1
  generalize locate name key ls = e at *
  have hpos : inp.seekPos w1 = rawLen e.before := by
    rw [h.src.seekPos, hs1, hos]
    exact Nat.zero_add _
  -- the lines before the place
  obtain ⟨hb, hbd, hbf⟩ := h.seek_src w1 0
  rw [hs1, hos, advance_data] at hb
  rw [hd1, ho] at hbd
  have hbefore : rawLen e.before ≤ (ss w).data.length := by
    have hl := congrArg rawLen happ
    rw [hr.rawLen_eq, rawLen_append, rawLen_append] at hl
    omega
  obtain ⟨w2, he2, hs2, hdata2, hadv, hf2⟩ := kfileCopy_spec h (rawLen e.before) (inp.seek w1 0)
    (by rw [hb]; exact hbefore) (by rw [hbd]; exact Nat.zero_le _)
  rw [hbd] at he2 hs2 hadv
  rw [hb] at hs2 hdata2 hadv
  have hfr2 : fr w2 = fr w := by rw [hf2, hbf, hf1, hof, hif]
  by_cases hfits : rawLen e.before ≤ (sd w).data.length
  · have hss2 := hadv hfits
    have hp0 : (⟨(sd w).data, 0⟩ : FileSt).pos ≤ (sd w).data.length := Nat.zero_le _
    obtain ⟨w3, he3, hs3, hf3⟩ := iniPrint_spec h.dst hn.printable hk hv e.sectionFound w2
      (by rw [hs2]; exact pos_store_le hp0 _)
    obtain ⟨hd3, hf3⟩ := Prod.mk.inj hf3
    have hrest : (ss w3).rest = (ss w).data.drop (rawLen e.before) := by
      rw [hd3, hss2, rest_advance]
      rfl
    have hr3 : RawLines (ss w3).rest (e.old ++ e.after) := by
      rw [hrest]
      rw [happ, append_assoc] at hr
      exact hr.drop (by simp [hafter])
    rw [hs2, store_store hp0] at hs3
    obtain ⟨w', he, hdata, hf, hd⟩ := iniCopyRest_spec h hr3 hafter
      (fun l hl => hls l (by rw [happ]; simp [hl])) hloc.old_cases (by rw [hs3]; exact pos_store_le hp0 _) line
    have hA : (rest ⟨(ss w).data, 0⟩).take (rawLen e.before) = (ss w).data.take (rawLen e.before) := rfl
    have hroom : (sd w3).room =
        (sd w).data.length - (rawLen e.before + (newText e.sectionFound name key value).length) := by
      rw [hs3, room_store hp0, hA, length_append, length_take, Nat.min_eq_left hbefore]
      rfl
    have hrep : rawLen (trimLines e.after) ≤ (sd w3).room ↔ e.Reported name key value (sd w).data.length := by
      rw [hroom, Edit.Reported]
      exact ⟨fun hc => ⟨hfits, hc⟩, fun hc => hc.2⟩
    refine ⟨w', ?_, by rw [hdata, hd3, hss2]; rfl, by rw [hf, hf3, hfr2], fun hc => ?_⟩
    · simp only [iniSetString, he1, hpos, he2]
      rw [if_neg (by simp only [room]; omega)]
      simp only [he3, he, hrep]
    · have hd := hd (hrep.mpr hc)
      rw [hroom, hs3, store_store hp0, hrest, drop_drop, hA] at hd
      rw [hd]
      apply store_padded
      rw [length_append, length_take, Nat.min_eq_left hbefore]
  · have hno : ¬ e.Reported name key value (sd w).data.length := fun hc => hfits hc.1
    refine ⟨w2, ?_, hdata2, hfr2, fun hc => absurd hc hno⟩
    simp only [iniSetString, he1, hpos, he2]
    rw [if_pos (by simp only [room]; omega), decide_eq_false hno]

end Set

end Bertos
