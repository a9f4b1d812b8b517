import Bertos.Fs.BattFs

/-!
# The search for a file

`findFile` (`bertos/fs/battfs.c`) halves the live part of the map. It may meet any page of the file; the offset
stored in the header leads back to the first one (`LiveOrdered.first_page`). When the file is not there, the upper
bound is its place.
-/

namespace Bertos

/-- The headers `H` of the `n` live pages are ordered by inode, then by consecutive page offsets from 0 on. -/
structure LiveOrdered (n : ℕ) (H : ℕ → BattFsPageHeader) : Prop where
  valid : ∀ i < n, HdrValid (H i)
  first : 0 < n → (H 0).pgoff = 0
  next : ∀ i, i + 1 < n → (H (i + 1)).inode = (H i).inode ∧ (H (i + 1)).pgoff = (H i).pgoff + 1 ∨
    (H i).inode < (H (i + 1)).inode ∧ (H (i + 1)).pgoff = 0

namespace LiveOrdered
variable {n : ℕ} {H : ℕ → BattFsPageHeader} (h : LiveOrdered n H)
include h

theorem inode_le {i j : ℕ} (hij : i ≤ j) (hj : j < n) : (H i).inode ≤ (H j).inode := by
  induction hij with
  | refl => exact Nat.le_refl _
  | step _ ih =>
    refine Nat.le_trans (ih (by omega)) ?_
    rcases h.next _ hj with ⟨he, -⟩ | ⟨hlt, -⟩
    · exact Nat.le_of_eq he.symm
    · exact Nat.le_of_lt hlt

/-- The offset leads back to the first page of the same file. -/
theorem first_page {i : ℕ} (hi : i < n) :
    (H i).pgoff ≤ i ∧ (H (i - (H i).pgoff)).inode = (H i).inode ∧ (H (i - (H i).pgoff)).pgoff = 0 := by
  induction i with
  | zero =>
    rw [h.first hi]
    exact ⟨Nat.le_refl _, rfl, h.first hi⟩
  | succ i ih =>
    rcases h.next i hi with ⟨hinode, hoff⟩ | ⟨-, hoff⟩
    · obtain ⟨hle, hsame, hzero⟩ := ih (by omega)
      rw [hoff, Nat.add_sub_add_right, hsame, hzero]
      exact ⟨by omega, hinode.symm, rfl⟩
    · rw [hoff]
      exact ⟨Nat.zero_le _, rfl, hoff⟩

end LiveOrdered

/-- What the search is to return: the first page of the file, or its place. -/
def FileAt (n : ℕ) (H : ℕ → BattFsPageHeader) (inode : ℕ) : Bool × ℕ → Prop
  | (true, pos) => pos < n ∧ (H pos).inode = inode ∧ (H pos).pgoff = 0
  | (false, pos) => pos ≤ n ∧ (∀ i < pos, (H i).inode < inode) ∧ ∀ i, pos ≤ i → i < n → inode < (H i).inode

variable {σ : Type} (vt : KBlockVTable σ)

/-- Without device errors: in the states `ok` of the driver, which reading does not leave, the live pages have the
headers `H`. -/
structure HeadersRead (w : BattFsSuper σ) (ok : σ → Prop) (H : ℕ → BattFsPageHeader) : Prop where
  start : ok w.raw
  read : ∀ raw i, ok raw → i < w.freePageStart →
    ∃ raw', ok raw' ∧ readHdr vt { w with raw := raw } (w.page i) = (some (H i), { w with raw := raw' })

variable {vt} {w : BattFsSuper σ} {ok : σ → Prop} {H : ℕ → BattFsPageHeader} {inode : ℕ}

/-- The invariant of the loop: the pages before `first` have smaller inodes, those from `last` on greater ones. -/
theorem findFileLoop_fileAt (hr : HeadersRead vt w ok H) (ho : LiveOrdered w.freePageStart H)
    (hn : w.freePageStart < 65536) : ∀ (fuel first last : ℕ) {raw : σ}, ok raw → first ≤ last →
    last ≤ w.freePageStart → last - first ≤ fuel → (∀ i < first, (H i).inode < inode) →
    (∀ i, last ≤ i → i < w.freePageStart → inode < (H i).inode) →
    FileAt w.freePageStart H inode (findFileLoop vt inode fuel { w with raw := raw } first last).1
  | 0, first, last, raw, _, hle, hlast, hfuel, hlow, hhigh =>
    ⟨hlast, fun i hi => hlow i (by omega), hhigh⟩
  | fuel + 1, first, last, raw, hok, hle, hlast, hfuel, hlow, hhigh => by
    unfold findFileLoop
    by_cases hlt : first < last
    · rw [if_pos hlt]
      dsimp only [BattFsSuper.page]
      generalize hmid : (first + last) / 2 = page
      have hpage : page < w.freePageStart := by omega
      have hvalid := ho.valid _ hpage
      obtain ⟨raw', hok', hread⟩ := hr.read raw _ hok hpage
      dsimp only [BattFsSuper.page] at hread
      rw [hread]
      dsimp only
      split_ifs with heq hless
      · obtain ⟨hoff, hinode, hzero⟩ := ho.first_page hpage
        have hpos : u16 ((page : ℤ) - (H page).pgoff) = page - (H page).pgoff := by
          unfold u16
          omega
        rw [hpos]
        exact ⟨by omega, hinode.trans heq.2, hzero⟩
      · refine findFileLoop_fileAt hr ho hn fuel (page + 1) last hok' (by omega) hlast (by omega) (fun i hi => ?_) hhigh
        exact Nat.lt_of_le_of_lt (ho.inode_le (by omega) hpage) hless.2
      · refine findFileLoop_fileAt hr ho hn fuel first page hok' (by omega) (by omega) (by omega) hlow fun i hi hi' =>
          ?_
        have hgt : inode < (H page).inode := by
          have hne : (H page).inode ≠ inode := fun he => heq ⟨hvalid, he⟩
          have hnlt : ¬ (H page).inode < inode := fun hl => hless ⟨hvalid, hl⟩
          omega
        exact Nat.lt_of_lt_of_le hgt (ho.inode_le hi hi')
    · rw [if_neg hlt]
      exact ⟨hlast, fun i hi => hlow i (by omega), hhigh⟩

/-- The search ends: once the turns cover the interval, more of them change nothing. -/
theorem findFileLoop_fuel : ∀ (f g : ℕ) (w : BattFsSuper σ) (first last : ℕ), last - first ≤ f → last - first ≤ g →
    findFileLoop vt inode f w first last = findFileLoop vt inode g w first last := by
  intro f
  induction f with
  | zero =>
    rintro (_ | g) w first last hf -
    · rfl
    · rw [findFileLoop, findFileLoop, if_neg (by omega)]
  | succ f ih =>
    rintro (_ | g) w first last hf hg
    · rw [findFileLoop, findFileLoop, if_neg (by omega)]
    · rw [findFileLoop, findFileLoop]
      split
      · dsimp only
        rcases readHdr vt w (w.page ((first + last) / 2)) with ⟨_ | hdr, w'⟩
        · rfl
        · dsimp only
          rw [ih g w' _ last (by omega) (by omega), ih g w' first _ (by omega) (by omega)]
      · rfl

/-- **The file or its place**: on a disk without device errors, whose live pages are ordered, the search ends and finds
the first page of the file, or the place between the smaller and the greater inodes. -/
theorem findFile_locates (hr : HeadersRead vt w ok H) (ho : LiveOrdered w.freePageStart H)
    (hn : w.freePageStart < 65536) (inode : ℕ) :
    (∀ fuel, w.freePageStart ≤ fuel → findFileLoop vt inode fuel w 0 w.freePageStart = findFile vt w inode) ∧
    ((∃ i < w.freePageStart, (H i).inode = inode) → ∃ pos, (findFile vt w inode).1 = (true, pos) ∧
      pos < w.freePageStart ∧ (H pos).inode = inode ∧ (H pos).pgoff = 0) ∧
    ((∀ i < w.freePageStart, (H i).inode ≠ inode) → ∃ pos, (findFile vt w inode).1 = (false, pos) ∧
      pos ≤ w.freePageStart ∧ (∀ i < pos, (H i).inode < inode) ∧
      ∀ i, pos ≤ i → i < w.freePageStart → inode < (H i).inode) := by
  refine ⟨fun fuel hfuel => findFileLoop_fuel _ _ _ _ _ (by omega) (by omega), ?_⟩
  have hfile : FileAt w.freePageStart H inode (findFile vt w inode).1 :=
    findFileLoop_fileAt hr ho hn _ 0 _ hr.start (Nat.zero_le _) (Nat.le_refl _) (Nat.sub_le _ _)
      (fun i hi => by omega) (fun i hi hi' => by omega)
  generalize findFile vt w inode = r at hfile ⊢
  obtain ⟨⟨found, pos⟩, w'⟩ := r
  cases found with
  | true =>
    exact ⟨fun _ => ⟨pos, rfl, hfile⟩, fun hne => absurd hfile.2.1 (hne pos hfile.1)⟩
  | false =>
    obtain ⟨hpos, hlow, hhigh⟩ := hfile
    refine ⟨fun ⟨i, hi, he⟩ => ?_, fun _ => ⟨pos, rfl, hpos, hlow, hhigh⟩⟩
    rcases Nat.lt_or_ge i pos with hlt | hge
    · exact absurd he (Nat.ne_of_lt (hlow i hlt))
    · exact absurd he (Nat.ne_of_gt (hhigh i hge hi))

/-- A file of two pages, the second one stored first. -/
def twoPages : KBlockVTable Unit where
  readDirect d idx _ _ := ((battfsToDisk (BattFsPageHeader.sealed ⟨2, 0, 1 - idx, 1, 0⟩), 12), d)
  writeDirect d _ _ _ := (0, d)

theorem findFile_locates_twoPages :
    let dev : KBlock := ⟨false, false, false, fun _ => 0, 0, 0, 16, 2⟩
    let w : BattFsSuper Unit := ⟨dev, (), 4, [1, 0], 2, 2, 0, fun _ => ⟨0, 0, 0, 0, 0, []⟩, [], []⟩
    ∃ pos, (findFile twoPages w 2).1 = (true, pos) ∧ pos < 2 ∧
      (BattFsPageHeader.sealed ⟨2, 0, pos, 1, 0⟩).pgoff = 0 := by
  intro dev w
  have hread : HeadersRead twoPages w (fun _ => True) fun i => BattFsPageHeader.sealed ⟨2, 0, i, 1, 0⟩ := by
    refine ⟨trivial, fun () i _ hi => ⟨(), trivial, ?_⟩⟩
    have hi' : i = 0 ∨ i = 1 := Nat.le_one_iff_eq_zero_or_eq_one.mp (Nat.le_of_lt_succ hi)
    rcases hi' with rfl | rfl
    all_goals exact congrArg (fun hdr => (some hdr, w)) (by decide +kernel)
  have hordered : LiveOrdered 2 fun i => BattFsPageHeader.sealed ⟨2, 0, i, 1, 0⟩ :=
    ⟨fun _ _ => rfl, fun _ => rfl, fun _ _ => Or.inl ⟨rfl, rfl⟩⟩
  obtain ⟨pos, hfound, hpos, -, hzero⟩ := (findFile_locates hread hordered (by decide) 2).2.1 ⟨0, by decide, rfl⟩
  exact ⟨pos, hfound, hpos, hzero⟩

end Bertos
