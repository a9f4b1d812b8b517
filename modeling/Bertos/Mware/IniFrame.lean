import Bertos.Mware.IniReader

/-!
# The ini functions on two files side by side

Files that answer reads and seeks alike answer every lookup alike (`iniGetString_sim`). If the writes to the output
agree with those of another device as long as `P` does not hold, `ini_setString` does the same on both so long, and it
keeps what reading the input and using the output keeps (`iniSetString_tracks`).
-/

namespace Bertos

section Sim

variable {W V : Type} {fd : KFile W} {gd : KFile V} {R : W → V → Prop} {w : W} {v : V}

section
variable (h : ReadSim fd gd R)
include h

/-- The search for the section reads alike in files that read alike, -/
theorem findSectionLoop_sim (name : List UInt8) : ∀ (fuel : ℕ) (line : ℕ → UInt8) (last : ℕ) {w : W} {v : V}, R w v →
      AlikeLine R (findSectionLoop fd name fuel line last w) (findSectionLoop gd name fuel line last v) := by
  intro fuel
  induction fuel with
  | zero => exact fun line _ _ _ hR => ⟨rfl, rfl, hR⟩
  | succ fuel ih =>
    intro line last w v hR
    obtain ⟨err, line', w', v', hf, hg, hR'⟩ := (kfileGets_sim h hR line iniMaxLineLen).eq
    unfold findSectionLoop
    rw [hf, hg]
    dsimp only
    rw [h.seekPos hR']
    split
    · exact ⟨rfl, rfl, hR'⟩
    · cases err with
      | none => exact ⟨rfl, rfl, h.seek hR' _⟩
      | some n => exact ih _ _ hR'

/-- and so does the search for the key. -/
theorem findKeyLoop_sim (key : List UInt8) : ∀ (fuel : ℕ) (line : ℕ → UInt8) (last pos : ℕ) {w : W} {v : V}, R w v →
      AlikeLine R (findKeyLoop fd key fuel line last pos w) (findKeyLoop gd key fuel line last pos v) := by
  intro fuel
  induction fuel with
  | zero => exact fun line _ _ _ _ hR => ⟨rfl, rfl, hR⟩
  | succ fuel ih =>
    intro line last pos w v hR
    obtain ⟨err, line', w', v', hf, hg, hR'⟩ := (kfileGets_sim h hR line iniMaxLineLen).eq
    unfold findKeyLoop
    rw [hf, hg]
    dsimp only
    rw [h.seekPos hR']
    split
    · exact ⟨rfl, rfl, h.seek hR' _⟩
    · split
      · exact ⟨rfl, rfl, h.seek hR' _⟩
      · exact ih _ _ _ hR'

theorem findSection_sim (hR : R w v) (name : List UInt8) (line : ℕ → UInt8) :
    AlikeLine R (findSection fd name line w) (findSection gd name line v) := by
  unfold findSection
  rw [h.seekPos hR, h.size hR]
  exact findSectionLoop_sim h name _ _ _ hR

theorem findKey_sim (hR : R w v) (key : List UInt8) (line : ℕ → UInt8) :
    AlikeLine R (findKey fd key line w) (findKey gd key line v) := by
  unfold findKey
  rw [h.seekPos hR, h.size hR]
  exact findKeyLoop_sim h key _ _ _ _ hR

/-- **Lookups in files that answer alike**; where the positions are does not matter, since a lookup
starts with a seek. -/
theorem iniGetString_sim (hR : R (fd.seek w 0) (gd.seek v 0)) (name key defaultValue : List UInt8) (size : ℕ)
    (stack : ℕ → UInt8) :
    Alike R (iniGetString fd name key defaultValue size stack w)
      (iniGetString gd name key defaultValue size stack v) := by
  obtain ⟨b, line, w1, v1, hf, hg, hR1⟩ := (findSection_sim h hR name stack).eq
  unfold iniGetString
  rw [hf, hg]
  cases b with
  | false => exact ⟨rfl, hR1⟩
  | true =>
    obtain ⟨c, line2, w2, v2, hf, hg, hR2⟩ := (findKey_sim h hR1 key line).eq
    dsimp only
    rw [hf, hg]
    cases c <;> exact ⟨rfl, hR2⟩

theorem findLastLineLoop_sim : ∀ (fuel : ℕ) (line : ℕ → UInt8) (last : ℕ) {w : W} {v : V}, R w v →
      AlikeLine R (findLastLineLoop fd fuel line last w) (findLastLineLoop gd fuel line last v) := by
  intro fuel
  induction fuel with
  | zero => exact fun line _ _ _ hR => ⟨rfl, rfl, hR⟩
  | succ fuel ih =>
    intro line last w v hR
    obtain ⟨err, line', w', v', hf, hg, hR'⟩ := (kfileGets_sim h hR line iniMaxLineLen).eq
    unfold findLastLineLoop
    rw [hf, hg]
    dsimp only
    rw [h.seekPos hR']
    cases err with
    | none => exact ⟨rfl, rfl, hR'⟩
    | some n => exact ih _ _ hR'

theorem findLastLine_sim (hR : R w v) (line : ℕ → UInt8) : Alike R (findLastLine fd line w)
    (findLastLine gd line v) := by
  unfold findLastLine
  rw [h.seekPos hR, h.size hR]
  obtain ⟨hl, -, hR'⟩ := findLastLineLoop_sim h (gd.size v + 1) line (gd.seekPos v) hR
  exact ⟨hl, h.seek hR' _⟩

theorem iniFind_sim (hR : R w v) (name key : List UInt8) (stack : ℕ → UInt8) :
    (iniFind fd name key stack w).1 = (iniFind gd name key stack v).1 ∧
      AlikeLine R (iniFind fd name key stack w).2 (iniFind gd name key stack v).2 := by
  obtain ⟨b, line, w1, v1, hf, hg, hR1⟩ := (findSection_sim h hR name stack).eq
  unfold iniFind
  rw [hf, hg]
  cases b with
  | false => exact ⟨rfl, rfl, rfl, hR1⟩
  | true => exact ⟨rfl, findKey_sim h hR1 key line⟩

end

end Sim

section Tracks

variable {W : Type} {fd inp out : KFile W} {P : W → Prop} {wr : W → List UInt8 → ℕ × W}

theorem iniGetString_preserves (h : Reads fd P) (name key defaultValue : List UInt8) (size : ℕ) (stack : ℕ → UInt8)
    (w : W) (hw : P w) : P (iniGetString fd name key defaultValue size stack w).2 :=
  (iniGetString_sim (h.sim fd.write w) ⟨rfl, h.seek w 0⟩ name key defaultValue size stack).2.2 hw

section
variable (ho : Follows out wr P)
include ho

/-- The new lines follow the write function. -/
theorem iniPrint_tracks (name key : List UInt8) (value : Option (List UInt8)) (sectionFound : Bool) (w : W) :
    Tracks P w (iniPrint out name key value sectionFound w)
      (iniPrint { out with write := wr } name key value sectionFound w) := by
  cases value with
  | none => exact .same id
  | some v =>
    have hkey := fun w1 => (kfilePrintf_tracks ho (keyText key v) w1).map (· == key.length + v.length + 2)
    cases sectionFound with
    | true => simpa only [iniPrint, if_true, ne_eq, not_true_eq_false, if_false] using hkey w
    | false =>
      have hs := kfilePrintf_tracks ho (sectionText name) w
      simp only [iniPrint, Bool.false_eq_true, if_false]
      generalize kfilePrintf out (sectionText name) w = x, kfilePrintf { out with write := wr } (sectionText name) w =
        x'
        at hs ⊢
      apply Tracks.bind hs
      intro r
      split_ifs
      · exact .same id
      · exact hkey r.2

theorem iniWipe_tracks (w : W) : Tracks P w (iniWipe out w) (iniWipe { out with write := wr } w) := by
  have hc := kfilePutc_tracks ho chLf w
  unfold iniWipe
  dsimp only
  split_ifs
  · exact .same id
  · generalize kfilePutc out chLf w = x, kfilePutc { out with write := wr } chLf w = x' at hc ⊢
    apply Tracks.bind hc
    rintro ⟨_ | _, w1⟩
    · exact .same id
    · exact kfileFill_tracks ho chSpace _ w1

variable (hi : Reads inp P) (wi : W → List UInt8 → ℕ × W)
include hi

/-- The copy of the rest follows the write function. -/
theorem iniCopyRest_tracks (keyFound : Bool) (line : ℕ → UInt8) (w : W) :
    Tracks P w (iniCopyRest inp out keyFound line w)
      (iniCopyRest { inp with write := wi } { out with write := wr } keyFound line w) := by
  have hs : AlikeLine (fun w' v => v = w' ∧ (P w → P w'))
      (if keyFound then kfileGets inp line iniMaxLineLen w else (none, line, w))
      (if keyFound then kfileGets { inp with write := wi } line iniMaxLineLen w else (none, line, w)) := by
    split_ifs
    · exact kfileGets_sim (hi.sim wi w) ⟨rfl, id⟩ line iniMaxLineLen
    · exact ⟨rfl, rfl, rfl, id⟩
  obtain ⟨x, line1, _, v1, hf, hg, rfl, hw1⟩ := hs.eq
  unfold iniCopyRest
  rw [hf, hg]
  obtain ⟨last, _, v2, hf, hg, rfl, hw2⟩ := (findLastLine_sim (hi.sim wi w) ⟨rfl, hw1⟩ line1).eq
  dsimp only
  rw [hf, hg]
  have hc : Tracks P w (kfileCopy inp out (inp.size v1 - inp.seekPos v1) v2) (kfileCopy { inp with write := wi }
    { out with write := wr } (inp.size v1 - inp.seekPos v1) v2) := (kfileCopyLoop_tracks hi ho _ _ v2).after hw2
  dsimp only
  generalize kfileCopy inp out (inp.size v1 - inp.seekPos v1) v2 = x, kfileCopy { inp with write := wi }
    { out with write := wr } (inp.size v1 - inp.seekPos v1) v2 = x' at hc ⊢
  apply Tracks.bind hc
  intro r
  split_ifs
  · exact .same id
  · exact iniWipe_tracks ho r.2

/-- **Setting a key** on two devices. -/
theorem iniSetString_tracks (name key : List UInt8) (value : Option (List UInt8)) (stack : ℕ → UInt8) (w : W) :
    Tracks P w (iniSetString inp out name key value stack w)
      (iniSetString { inp with write := wi } { out with write := wr } name key value stack w) := by
  have hf := iniFind_sim (hi.sim wi w) (w := out.seek (inp.seek w 0) 0) ⟨rfl, fun hw => ho.seek _ 0 (hi.seek w 0 hw)⟩
    name key
    stack
  unfold iniSetString
  dsimp only
  generalize iniFind inp name key stack (out.seek (inp.seek w 0) 0) = r,
    iniFind { inp with write := wi } name key stack (out.seek (inp.seek w 0) 0) = r' at hf ⊢
  obtain ⟨sf, kf, line, w1⟩ := r
  obtain ⟨sf', kf', line', v1⟩ := r'
  obtain ⟨rfl, rfl, rfl, rfl, hw1⟩ : sf = sf' ∧ kf = kf' ∧ line = line' ∧ v1 = w1 ∧ (P w → P w1) := hf
  have hc : Tracks P w (kfileCopy inp out (inp.seekPos v1) (inp.seek v1 0)) (kfileCopy { inp with write := wi }
    { out with write := wr } (inp.seekPos v1) (inp.seek v1 0)) :=
    (kfileCopyLoop_tracks hi ho _ _ _).after fun hw => hi.seek _ 0 (hw1 hw)
  dsimp only
  generalize kfileCopy inp out (inp.seekPos v1) (inp.seek v1 0) = x, kfileCopy { inp with write := wi }
    { out with write := wr } (inp.seekPos v1) (inp.seek v1 0) = x' at hc ⊢
  apply Tracks.bind hc
  intro r
  split_ifs
  · exact .same id
  · have hp := iniPrint_tracks ho name key value sf r.2
    generalize iniPrint out name key value sf r.2 = x, iniPrint { out with write := wr } name key value sf r.2 =
      x' at hp ⊢
    apply Tracks.bind hp
    rintro ⟨_ | _, w3⟩
    · exact .same id
    · exact iniCopyRest_tracks ho hi wi kf line w3

end

theorem iniSetString_preserves (hi : Reads inp P) (ho : Preserves out P) (name key : List UInt8)
    (value : Option (List UInt8)) (stack : ℕ → UInt8) (w : W) (hw : P w) :
    P (iniSetString inp out name key value stack w).2 :=
  (iniSetString_tracks ho.follows hi inp.write name key value stack w).1 hw

end Tracks

end Bertos
