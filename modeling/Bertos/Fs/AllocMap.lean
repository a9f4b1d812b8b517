import Mathlib.Data.List.Nodup
import Mathlib.Data.List.Perm.Basic
import Bertos.Fs.BattFs

/-!
# The allocation map under device errors

`page_array` is to list every block of the device exactly once. The driver is arbitrary here: any access may fail. A
block leaves the free area in two ways, both rearrangements of the map (`perm_insertIdx_eraseIdx`,
`perm_set_eraseIdx`), and a relocation that is not completed breaks it (`not_nodup_eraseIdx_append`).

In every state of a run (`FsRun`: mount, opening, writing, closing) a `battfs_write` keeps the map a permutation
exactly if the copies of the overwritten pages succeed, and `battfs_fileopen` always does (`allocMap_perm_iff`).
-/

namespace Bertos

open List BattFsSuper

/-! ## Rearrangements of a list -/

section Lists
variable {α : Type} {l : List α} {m n : ℕ}

theorem perm_insertIdx_eraseIdx (hn : n < l.length) (hm : m ≤ n) : ((l.eraseIdx n).insertIdx m l[n]).Perm l := by
  have hle : m ≤ (l.eraseIdx n).length := by
    rw [length_eraseIdx_of_lt hn]
    omega
  exact (perm_insertIdx _ _ hle).trans (getElem_cons_eraseIdx_perm hn)

/-- An element put in the place of one before it, which goes to the end. -/
theorem perm_set_eraseIdx (hn : n < l.length) (hm : m < n) :
    ((l.eraseIdx n ++ [l[m]]).set m l[n]).Perm l := by
  have hlen : m < (l.eraseIdx n).length := by
    rw [length_eraseIdx_of_lt hn]
    omega
  have hget : (l.eraseIdx n)[m] = l[m] := getElem_eraseIdx_of_lt hlen hm
  rw [set_append_left _ _ hlen]
  calc ((l.eraseIdx n).set m l[n] ++ [l[m]]).Perm (l[m] :: (l.eraseIdx n).set m l[n]) := perm_append_singleton _ _
    _ |>.Perm (l[m] :: l[n] :: (l.eraseIdx n).eraseIdx m) := (set_perm_cons_eraseIdx hlen _).cons _
    _ |>.Perm (l[n] :: l[m] :: (l.eraseIdx n).eraseIdx m) := List.Perm.swap _ _ _
    _ |>.Perm (l[n] :: l.eraseIdx n) := by
      rw [← hget]
      exact (getElem_cons_eraseIdx_perm hlen).cons _
    _ |>.Perm l := getElem_cons_eraseIdx_perm hn

theorem not_nodup_eraseIdx_append (hn : n < l.length) (hm : m < n) : ¬ (l.eraseIdx n ++ [l[m]]).Nodup := by
  have hlen : m < (l.eraseIdx n).length := by
    rw [length_eraseIdx_of_lt hn]
    omega
  have hmem : l[m] ∈ l.eraseIdx n := by
    rw [← getElem_eraseIdx_of_lt hlen hm]
    exact getElem_mem _
  intro h
  exact (nodup_append.mp h).2.2 _ hmem _ (mem_singleton_self _) rfl

end Lists

/-! ## What the device cannot touch -/

variable {σ : Type} (vt : KBlockVTable σ)

/-- Two states with the same map, and handles at the same places of it. -/
structure SameMap (w w' : BattFsSuper σ) : Prop where
  geometry : SameGeometry w.dev w'.dev
  dataSize : w'.dataSize = w.dataSize
  pageArray : w'.pageArray = w.pageArray
  freePageStart : w'.freePageStart = w.freePageStart
  opened : w'.opened = w.opened
  start : ∀ i, (w'.fds i).start = (w.fds i).start
  maxOff : ∀ i, (w'.fds i).maxOff = (w.fds i).maxOff

namespace SameMap
variable {w w' w'' : BattFsSuper σ}

theorem refl (w : BattFsSuper σ) : SameMap w w := ⟨.refl _, rfl, rfl, rfl, rfl, fun _ => rfl, fun _ => rfl⟩

theorem trans (h1 : SameMap w w') (h2 : SameMap w' w'') : SameMap w w'' where
  geometry := h1.geometry.trans h2.geometry
  dataSize := h2.dataSize.trans h1.dataSize
  pageArray := h2.pageArray.trans h1.pageArray
  freePageStart := h2.freePageStart.trans h1.freePageStart
  opened := h2.opened.trans h1.opened
  start i := (h2.start i).trans (h1.start i)
  maxOff i := (h2.maxOff i).trans (h1.maxOff i)

theorem blkCnt (h : SameMap w w') : w'.dev.blkCnt = w.dev.blkCnt := h.geometry.blkCnt

theorem page (h : SameMap w w') (pos : ℕ) : w'.page pos = w.page pos := by
  rw [BattFsSuper.page, h.pageArray, BattFsSuper.page]

/-- Only the size, the position and the errors of a handle change, and the number of free bytes. -/
theorem setFd (w : BattFsSuper σ) (h n : ℕ) (size seekPos : ℤ) (es : List BattFsError) :
    SameMap w ({ w with freeBytes := n }.setFd h
      { w.fds h with size := size, seekPos := seekPos, errors := es }) := by
  refine ⟨.refl _, rfl, rfl, rfl, rfl, ?_, ?_⟩
  all_goals
    intro i
    by_cases hi : i = h
    · subst hi
      simp [BattFsSuper.setFd]
    · simp [BattFsSuper.setFd, hi]

theorem setError (w : BattFsSuper σ) (h : ℕ) (e : BattFsError) : SameMap w (w.setError h e) :=
  setFd w h w.freeBytes _ _ _

theorem blockWrite (w : BattFsSuper σ) (p : ℕ) (bs : List UInt8) (o : ℕ) : SameMap w (blockWrite vt w p bs o).2 :=
  ⟨kblockWrite_geometry vt w.dev w.raw p bs o, rfl, rfl, rfl, rfl, fun _ => rfl, fun _ => rfl⟩

theorem blockCopy (w : BattFsSuper σ) (src dest : ℕ) : SameMap w (blockCopy vt w src dest).2 :=
  ⟨kblockCopy_geometry vt w.dev w.raw src dest, rfl, rfl, rfl, rfl, fun _ => rfl, fun _ => rfl⟩

theorem readHdr (w : BattFsSuper σ) (p : ℕ) : SameMap w (readHdr vt w p).2 :=
  ⟨.refl _, rfl, rfl, rfl, rfl, fun _ => rfl, fun _ => rfl⟩

theorem writeHdr (w : BattFsSuper σ) (p : ℕ) (hdr : BattFsPageHeader) : SameMap w (writeHdr vt w p hdr).2 :=
  blockWrite vt w p _ _

theorem padPage (p n : ℕ) (w : BattFsSuper σ) (h : ℕ) (hdr : BattFsPageHeader) :
    SameMap w (padPage vt p n w h hdr).2 := by
  induction n generalizing w hdr with
  | zero => exact refl w
  | succ n ih =>
    have hw := blockWrite vt w p [0] hdr.fill
    unfold Bertos.padPage
    generalize Bertos.blockWrite vt w p [0] hdr.fill = r at hw ⊢
    obtain ⟨cnt, w'⟩ := r
    dsimp only
    split_ifs
    · exact hw.trans (setError w' h _)
    · exact hw.trans ((setFd w' h _ _ _ _).trans (ih _ _))

theorem zeroPage (p n : ℕ) (w : BattFsSuper σ) : SameMap w (zeroPage vt p n w).2 :=
  zeroPage_rule vt refl trans (fun w o => blockWrite vt w p [0] o) n w

end SameMap

/-! ## Taking a block from the free area -/

/-- The map lists every block exactly once, and the free area lies inside. -/
structure MapOk (w : BattFsSuper σ) : Prop where
  perm : w.pageArray.Perm (List.range w.dev.blkCnt)
  free_le : w.freePageStart ≤ w.dev.blkCnt

/-- The last page of the file of a handle is in the used part of the map. -/
def LastUsed (w : BattFsSuper σ) (h : ℕ) : Prop := (w.fds h).start + (w.fds h).maxOff < w.freePageStart

/-- A disk with a well-formed map, and with the last pages of all open files in its used part. -/
structure DiskOk (w : BattFsSuper σ) : Prop extends MapOk w where
  blkCnt_lt : w.dev.blkCnt < 65534
  dataSize_pos : 0 < w.dataSize
  dataSize_lt : w.dataSize < 65536
  opened_used : ∀ g ∈ w.opened, LastUsed w g

/-- The handle `h` may be written through. -/
structure Writable (w : BattFsSuper σ) (h : ℕ) : Prop extends DiskOk w where
  mem : h ∈ w.opened

section Free
variable {w w' : BattFsSuper σ} {h p pos : ℕ}

theorem MapOk.length (hw : MapOk w) : w.pageArray.length = w.dev.blkCnt := by
  simpa using hw.perm.length_eq

theorem BattFsSuper.page_eq (hp : pos < w.pageArray.length) : w.page pos = w.pageArray[pos] := by
  rw [page, getD_eq_getElem?_getD, getElem?_eq_getElem hp, Option.getD_some]

theorem MapOk.same (hw : MapOk w) (hs : SameMap w w') : MapOk w' := by
  refine ⟨?_, ?_⟩
  · rw [hs.pageArray, hs.blkCnt]
    exact hw.perm
  · rw [hs.freePageStart, hs.blkCnt]
    exact hw.free_le

theorem DiskOk.same (hw : DiskOk w) (hs : SameMap w w') : DiskOk w' where
  toMapOk := hw.toMapOk.same hs
  blkCnt_lt := by rw [hs.blkCnt]; exact hw.blkCnt_lt
  dataSize_pos := by rw [hs.dataSize]; exact hw.dataSize_pos
  dataSize_lt := by rw [hs.dataSize]; exact hw.dataSize_lt
  opened_used g hg := by
    rw [LastUsed, hs.start, hs.maxOff, hs.freePageStart]
    exact hw.opened_used g (hs.opened ▸ hg)

theorem Writable.same (hw : Writable w h) (hs : SameMap w w') : Writable w' h :=
  ⟨hw.toDiskOk.same hs, hs.opened ▸ hw.mem⟩

theorem Writable.last_lt (hw : Writable w h) : (w.fds h).start + (w.fds h).maxOff < w.freePageStart :=
  hw.opened_used h hw.mem

/-- A file gets another last page. -/
theorem Writable.setMaxOff (hw : Writable w h) {m : ℕ} (hm : (w.fds h).start + m < w.freePageStart) :
    Writable (w.setFd h { w.fds h with maxOff := m }) h := by
  refine ⟨⟨⟨hw.perm, hw.free_le⟩, hw.blkCnt_lt, hw.dataSize_pos, hw.dataSize_lt, fun g hg => ?_⟩, hw.mem⟩
  by_cases hgh : g = h
  · subst hgh
    simpa [LastUsed, setFd] using hm
  · simpa [LastUsed, setFd, hgh] using hw.opened_used g hg

/-- A new page keeps the map in order and leaves the device alone. -/
theorem MapOk.of_allocateNewPage (hw : MapOk w) (hpos : pos ≤ w.freePageStart) {inode : ℕ}
    (ha : allocateNewPage w pos inode = some (p, w')) :
    MapOk w' ∧ w'.freePageStart = w.freePageStart + 1 ∧ w'.dev = w.dev ∧ w'.dataSize = w.dataSize ∧
      w'.opened = w.opened ∧ (∀ i, (w'.fds i).start ≤ (w.fds i).start + 1 ∧ (w'.fds i).maxOff = (w.fds i).maxOff ∧
        (w'.fds i).seekPos = (w.fds i).seekPos) ∧
      (∀ i, (w.fds i).inode = inode → (w'.fds i).start = (w.fds i).start) ∧ w'.page pos = p := by
  unfold allocateNewPage spaceOver at ha
  split_ifs at ha with hs
  have hlt : w.freePageStart < w.dev.blkCnt := by simpa using hs
  cases ha
  refine ⟨⟨?_, hlt⟩, rfl, rfl, rfl, rfl, fun i => ?_, fun i hi => ?_, ?_⟩
  · rw [page_eq (by rw [hw.length]; exact hlt)]
    exact (perm_insertIdx_eraseIdx _ hpos).trans hw.perm
  · dsimp only
    split_ifs
    · exact ⟨Nat.le_refl _, rfl, rfl⟩
    · exact ⟨Nat.le_succ _, rfl, rfl⟩
  · dsimp only
    rw [if_neg (by omega)]
  · have hle : pos ≤ (w.pageArray.eraseIdx w.freePageStart).length := by
      rw [length_eraseIdx_of_lt (by rw [hw.length]; exact hlt), hw.length]
      omega
    simp [page, getElem?_insertIdx_self, hle]

/-- The open files behind the new page move with it. -/
theorem DiskOk.of_allocateNewPage (hw : DiskOk w) (hpos : pos ≤ w.freePageStart) {inode : ℕ}
    (ha : allocateNewPage w pos inode = some (p, w')) : DiskOk w' := by
  obtain ⟨hmap, hfree, hdev, hds, hopened, hfds, -⟩ := hw.toMapOk.of_allocateNewPage hpos ha
  refine ⟨hmap, hdev ▸ hw.blkCnt_lt, hds ▸ hw.dataSize_pos, hds ▸ hw.dataSize_lt, fun g hg => ?_⟩
  have hlt : (w.fds g).start + (w.fds g).maxOff < w.freePageStart := hw.opened_used g (hopened ▸ hg)
  obtain ⟨hstart, hmax, -⟩ := hfds g
  rw [LastUsed]
  omega

/-- A block put in the place of another one, which becomes free: what `renewPage` does to the map. -/
theorem MapOk.of_renewPage (hw : MapOk w) (hr : renewPage w (w.page pos) = some (p, w')) :
    w.freePageStart < w.dev.blkCnt ∧ p = w.page w.freePageStart ∧
      SameMap { w with pageArray := w.pageArray.eraseIdx w.freePageStart ++ [w.page pos] } w' ∧ w'.fds = w.fds := by
  unfold renewPage spaceOver movePages at hr
  split_ifs at hr with hs
  have hlt : w.freePageStart < w.dev.blkCnt := by simpa using hs
  cases hr
  refine ⟨hlt, rfl, ⟨.refl _, rfl, ?_, rfl, rfl, fun _ => rfl, fun _ => rfl⟩, rfl⟩
  have hlen : (w.pageArray.eraseIdx w.freePageStart).length = w.dev.blkCnt - 1 := by
    rw [length_eraseIdx_of_lt (by rw [hw.length]; exact hlt), hw.length]
  simp only [setPage, Nat.add_sub_cancel]
  rw [set_append_right _ _ (by omega), hlen]
  simp

/-- What `relocate` does: nothing, or a renewal of the page and a copy, whose result is returned. -/
theorem relocate_cases {pos' : ℕ} {ok : Bool} (hw : MapOk w)
    (hr : relocate vt w pos pos' = some (p, ok, w')) :
    (p = w.page pos ∧ ok = true ∧ w' = w) ∨
      (w.freePageStart < w.dev.blkCnt ∧ p = w.page w.freePageStart ∧
        SameMap { w with pageArray := w.pageArray.eraseIdx w.freePageStart ++ [w.page pos] } w' ∧ w'.fds = w.fds) := by
  unfold relocate at hr
  split_ifs at hr
  · cases hn : renewPage w (w.page pos) with
    | none => simp [hn] at hr
    | some r =>
      obtain ⟨q, w₁⟩ := r
      rw [hn] at hr
      obtain ⟨hlt, hq, hs, hfds⟩ := hw.of_renewPage hn
      cases hr
      exact Or.inr ⟨hlt, hq, hs.trans (SameMap.blockCopy vt w₁ _ _), hfds⟩
  · cases hr
    exact Or.inl ⟨rfl, rfl, rfl⟩

/-- The relocation completed: the new block is entered in the map, whatever the copy did. -/
theorem Writable.of_relocate {pos' : ℕ} {ok : Bool} (hw : Writable w h) (hpos : pos < w.freePageStart)
    (hr : relocate vt w pos pos' = some (p, ok, w')) :
    Writable (w'.setPage pos p) h ∧ SameGeometry w.dev w'.dev ∧ w'.dataSize = w.dataSize ∧ w'.fds = w.fds := by
  rcases relocate_cases vt hw.toMapOk hr with ⟨rfl, -, rfl⟩ | ⟨hlt, rfl, hs, hfds⟩
  · have hpg : w'.setPage pos (w'.page pos) = w' := by
      unfold setPage
      rw [page_eq (by rw [hw.length]; have := hw.free_le; omega), set_getElem_self]
    rw [hpg]
    exact ⟨hw, .refl _, rfl, rfl⟩
  · have hperm : ((w.pageArray.eraseIdx w.freePageStart ++ [w.page pos]).set pos (w.page w.freePageStart)).Perm
        (range w.dev.blkCnt) := by
      rw [page_eq (by rw [hw.length]; omega), page_eq (by rw [hw.length]; exact hlt)]
      exact (perm_set_eraseIdx _ hpos).trans hw.perm
    have hw' : Writable { w with
        pageArray := (w.pageArray.eraseIdx w.freePageStart ++ [w.page pos]).set pos (w.page w.freePageStart) } h :=
      { hw with perm := hperm }
    refine ⟨hw'.same { hs with pageArray := ?_ }, hs.geometry, hs.dataSize, hfds⟩
    simp only [setPage, hs.pageArray]

/-- The relocation given up after a failed copy: the old block is listed twice. -/
theorem relocate_failed {pos' : ℕ} (hw : MapOk w) (hpos : pos < w.freePageStart)
    (hr : relocate vt w pos pos' = some (p, false, w')) : ¬ w'.pageArray.Perm (List.range w'.dev.blkCnt) := by
  rcases relocate_cases vt hw hr with ⟨-, hf, -⟩ | ⟨hlt, -, hs, -⟩
  · cases hf
  · intro hperm
    have hnd := hperm.nodup_iff.mpr nodup_range
    rw [hs.pageArray] at hnd
    rw [page_eq (by rw [hw.length]; omega)] at hnd
    exact not_nodup_eraseIdx_append (by rw [hw.length]; exact hlt) hpos hnd

end Free

/-! ## One turn of the write loop -/

/-- The offset in the page and the length of a piece to write, without the conversions. -/
theorem turn_offsets {seekPos : ℤ} {dataSize : ℕ} (len : ℕ) (h0 : 0 ≤ seekPos) (hd : 0 < dataSize)
    (hd' : dataSize < 65536) :
    (u16 (seekPos.tmod dataSize) : ℤ) = seekPos % dataSize ∧ u16 (seekPos.tmod dataSize) < dataSize ∧
      u16 (min len (u32 ((dataSize : ℤ) - u16 (seekPos.tmod dataSize))) : ℕ) =
        min len (dataSize - u16 (seekPos.tmod dataSize)) := by
  have hm : seekPos.tmod dataSize = seekPos % dataSize := Int.tmod_eq_emod_of_nonneg h0
  have hlt : seekPos % (dataSize : ℤ) < dataSize := Int.emod_lt_of_pos _ (by omega)
  have hnn : 0 ≤ seekPos % (dataSize : ℤ) := Int.emod_nonneg _ (by omega)
  have ha : (u16 (seekPos.tmod dataSize) : ℤ) = seekPos % dataSize := by
    unfold u16
    omega
  have hlt' : u16 (seekPos.tmod dataSize) < dataSize := by omega
  generalize u16 (seekPos.tmod dataSize) = a at ha hlt' ⊢
  refine ⟨ha, hlt', ?_⟩
  have hu : u32 ((dataSize : ℤ) - a) = dataSize - a := by
    unfold u32
    omega
  rw [hu, u16_of_lt (by omega)]

theorem u16_tdiv_le {seekPos : ℤ} {dataSize n m : ℕ} (h0 : 0 ≤ seekPos) (hd : 0 < dataSize)
    (hn : seekPos % dataSize + n ≤ dataSize) (hm : u16 (seekPos.tdiv dataSize) ≤ m) :
    u16 ((seekPos + n).tdiv dataSize) ≤ m + 1 := by
  rw [Int.tdiv_eq_ediv_of_nonneg h0] at hm
  rw [Int.tdiv_eq_ediv_of_nonneg (by omega)]
  have hq : seekPos = dataSize * (seekPos / dataSize) + seekPos % dataSize := (Int.mul_ediv_add_emod _ _).symm
  have hlo : seekPos / dataSize ≤ (seekPos + n) / dataSize := Int.ediv_le_ediv (by omega) (by omega)
  have hhi : (seekPos + n) / dataSize ≤ seekPos / dataSize + 1 := by
    apply Int.ediv_le_of_le_mul (by omega)
    rw [Int.mul_comm, Int.mul_add]
    omega
  unfold u16 at hm ⊢
  omega

/-- The relocation of the page at offset `pgOffset` of the file ends with a failed copy. -/
def RelocationFails (w : BattFsSuper σ) (h pgOffset : ℕ) : Prop :=
  ¬ (w.fds h).maxOff < pgOffset ∧
    ∃ hdr w₁ p w₂, readHdr vt w (w.page ((w.fds h).start + pgOffset)) = (some hdr, w₁) ∧
      relocate vt w₁ ((w.fds h).start + pgOffset) ((w.fds h).start + (w.fds h).maxOff) = some (p, false, w₂)

section Turn
variable {w : BattFsSuper σ} {h pgOffset : ℕ} {w' : BattFsSuper σ}

/-- `SPACE_OVER`, a read error or a completed relocation: the page is selected, or the map is left alone. -/
theorem Writable.of_selectPage (hw : Writable w h) (hpg : pgOffset ≤ (w.fds h).maxOff + 1)
    (hok : ¬ RelocationFails vt w h pgOffset) {r : Option (ℕ × BattFsPageHeader)}
    (hs : selectPage vt w h pgOffset = (r, w')) : Writable w' h ∧ SameGeometry w.dev w'.dev ∧ w'.dataSize = w.dataSize ∧
      ∀ p hdr, r = some (p, hdr) → pgOffset ≤ (w'.fds h).maxOff ∧ (w'.fds h).seekPos = (w.fds h).seekPos ∧
        w'.page ((w'.fds h).start + pgOffset) = p := by
  have hin := hw.last_lt
  unfold selectPage at hs
  dsimp only at hs
  split_ifs at hs with hlt
  · cases ha : allocateNewPage w ((w.fds h).start + pgOffset) (w.fds h).inode with
    | none =>
      rw [ha] at hs
      cases hs
      exact ⟨hw.same (SameMap.setError w h _), .refl _, rfl, by simp⟩
    | some a =>
      rw [ha] at hs
      cases hs
      obtain ⟨-, hfree, hdev, hds, hopened, hfds, hstart, hpage⟩ := hw.toMapOk.of_allocateNewPage (by omega) ha
      have hst := hstart h rfl
      have hw₁ : Writable _ h := ⟨hw.toDiskOk.of_allocateNewPage (by omega) ha, hopened ▸ hw.mem⟩
      refine ⟨hw₁.setMaxOff (by omega), hdev ▸ SameGeometry.refl w.dev, hds, fun q hdr hq => ?_⟩
      cases hq
      simp only [setFd, if_true, hst]
      exact ⟨Nat.le_refl _, (hfds h).2.2, hpage⟩
  · have hr := SameMap.readHdr vt w (w.page ((w.fds h).start + pgOffset))
    cases hh : readHdr vt w (w.page ((w.fds h).start + pgOffset)) with
    | mk o w₁ =>
      rw [hh] at hs hr
      have hw1 := hw.same hr
      have hfds : w₁.fds = w.fds := congrArg (fun x => x.2.fds) hh.symm
      cases o with
      | none =>
        cases hs
        exact ⟨hw1.same (SameMap.setError w₁ h _), hr.geometry, hr.dataSize, by simp⟩
      | some hdr =>
        dsimp only at hs
        cases hre : relocate vt w₁ ((w.fds h).start + pgOffset) ((w.fds h).start + (w.fds h).maxOff) with
        | none =>
          rw [hre] at hs
          cases hs
          exact ⟨hw1.same (SameMap.setError w₁ h _), hr.geometry, hr.dataSize, by simp⟩
        | some x =>
          obtain ⟨p, ok, w₂⟩ := x
          rw [hre] at hs
          have hlast := hw1.last_lt
          rw [hfds] at hlast
          obtain ⟨hw2, hg2, hds2, hfds2⟩ := hw1.of_relocate vt (by omega) hre
          have hlen2 : (w.fds h).start + pgOffset < w₂.pageArray.length := by
            have hlen := hw2.toMapOk.length
            have hle := hw2.toMapOk.free_le
            have hin2 := hw2.last_lt
            simp only [setPage, length_set, hfds2, hfds] at hlen hle hin2
            omega
          cases ok with
          | false => exact absurd ⟨hlt, hdr, w₁, p, w₂, hh, hre⟩ hok
          | true =>
            cases hs
            refine ⟨hw2, hr.geometry.trans hg2, hds2.trans hr.dataSize, fun q hdr' hq => ?_⟩
            cases hq
            simp only [setPage, hfds2, hfds, true_and]
            exact ⟨by omega, by simp [page, hlen2]⟩

theorem selectPage_failed (hw : Writable w h) (hf : RelocationFails vt w h pgOffset) :
    (selectPage vt w h pgOffset).1 = none ∧
      ¬ (selectPage vt w h pgOffset).2.pageArray.Perm (List.range (selectPage vt w h pgOffset).2.dev.blkCnt) := by
  obtain ⟨hlt, hdr, w₁, p, w₂, hh, hre⟩ := hf
  have hr := SameMap.readHdr vt w (w.page ((w.fds h).start + pgOffset))
  rw [hh] at hr
  have hin := hw.last_lt
  have hbad := relocate_failed vt (hw.toMapOk.same hr) (by rw [hr.freePageStart]; omega) hre
  unfold selectPage
  simp only [hlt, if_false, hh, hre, true_and]
  exact hbad

/-- The position of a handle is at most one page behind its last page, and the data to write fits. -/
structure InReach (w : BattFsSuper σ) (h : ℕ) (buf : List UInt8) : Prop where
  nonneg : 0 ≤ (w.fds h).seekPos
  lt : (w.fds h).seekPos + buf.length < 2147483648
  page_le : u16 ((w.fds h).seekPos.tdiv w.dataSize) ≤ (w.fds h).maxOff + 1

/-- A piece is stored by a write of the data and, after one that succeeded, a write of the header; what fails only marks
the handle. -/
theorem storePiece_rule {Q : Bool × ℕ × BattFsSuper σ → Prop} (w : BattFsSuper σ) (h p addr : ℕ)
    (hdr : BattFsPageHeader)
    (bs : List UInt8) (hdata : Q (false, 0, (blockWrite vt w p bs addr).2.setError h .diskWrite))
    (hhdr : ∀ w₂ hdr', w₂.log = (blockWrite vt w p bs addr).2.log → w₂.dev = (blockWrite vt w p bs addr).2.dev →
      SameMap (blockWrite vt w p bs addr).2 w₂ → (w₂.fds h).seekPos = i32 ((w.fds h).seekPos + bs.length) →
      Q (false, bs.length, (writeHdr vt w₂ p hdr').2.setError h .diskWrite) ∧
        ((writeHdr vt w₂ p hdr').1 = true → Q (true, bs.length, (writeHdr vt w₂ p hdr').2))) :
    Q (storePiece vt w h p hdr addr bs) := by
  have hfds := blockWrite_fds vt w p bs addr
  unfold storePiece
  generalize blockWrite vt w p bs addr = r at hdata hhdr hfds ⊢
  dsimp only
  split_ifs
  · exact hdata
  · generalize hw2 : setFd _ h _ = w₂
    obtain ⟨hfail, hdone⟩ := hhdr w₂
      { hdr with fill := u16 (hdr.fill + u16 (max ((addr : ℤ) + bs.length - hdr.fill) 0)) }
      (by rw [← hw2]; rfl) (by rw [← hw2]; rfl) (by rw [← hw2]; exact SameMap.setFd _ h _ _ _ _)
      (by rw [← hw2, ← hfds]; simp [setFd])
    generalize writeHdr vt w₂ p _ = r' at hfail hdone ⊢
    obtain ⟨_ | _, w3⟩ := r'
    · exact hfail
    · exact hdone rfl

/-- The second half of a turn does not touch the map; the position moves on by the length of the piece. -/
theorem storePiece_same {p addr : ℕ} {hdr : BattFsPageHeader} {bs : List UInt8} {go : Bool} {n : ℕ}
    (hs : storePiece vt w h p hdr addr bs = (go, n, w')) :
    SameMap w w' ∧ (go = true → n = bs.length ∧ (w'.fds h).seekPos = i32 ((w.fds h).seekPos + bs.length)) := by
  have hs1 := SameMap.blockWrite vt w p bs addr
  have hrule := storePiece_rule vt (Q := fun r => SameMap w r.2.2 ∧ (r.1 = true → r.2.1 = bs.length ∧
    (r.2.2.fds h).seekPos = i32 ((w.fds h).seekPos + bs.length))) w h p addr hdr bs
    ⟨hs1.trans (SameMap.setError _ h _), by simp⟩ fun w₂ hdr' _ _ hs2 hseek => by
      have hs3 := (hs1.trans hs2).trans (SameMap.writeHdr vt w₂ p hdr')
      exact ⟨⟨hs3.trans (SameMap.setError _ h _), by simp⟩, fun _ => ⟨hs3, fun _ => ⟨rfl, hseek⟩⟩⟩
  rwa [hs] at hrule

/-- A turn from `w` to `w'` that wrote `n` bytes to block `p`, after which the loop goes on. -/
structure TurnDone (w w' : BattFsSuper σ) (h : ℕ) (buf : List UInt8) (n p : ℕ) : Prop where
  reach : InReach w' h (buf.drop n)
  len : (n : ℤ) = min (buf.length : ℤ) (w.dataSize - (w.fds h).seekPos % w.dataSize)
  dataSize : w'.dataSize = w.dataSize
  seekPos : (w'.fds h).seekPos = (w.fds h).seekPos + n
  page_le : u16 ((w.fds h).seekPos.tdiv w.dataSize) ≤ (w'.fds h).maxOff
  page : w'.page ((w'.fds h).start + u16 ((w.fds h).seekPos.tdiv w.dataSize)) = p

/-- **A turn of the write loop** leaves the file writable. -/
theorem Writable.of_writeTurn (hw : Writable w h) {buf : List UInt8} (hp : InReach w h buf)
    (hok : ¬ RelocationFails vt w h (u16 ((w.fds h).seekPos.tdiv w.dataSize))) {go : Bool} {n : ℕ}
      (ht : writeTurn vt w h buf = (go, n, w')) :
    Writable w' h ∧ (go = true → ∃ p hdr w₁ addr bs, SameGeometry w.dev w₁.dev ∧
      storePiece vt w₁ h p hdr addr bs = (true, n, w') ∧ TurnDone w w' h buf n p) := by
  obtain ⟨haddr, haddr_lt, hlen⟩ := turn_offsets buf.length hp.nonneg hw.dataSize_pos hw.dataSize_lt
  have hds := hw.dataSize_pos
  unfold writeTurn at ht
  dsimp only at ht
  rw [hlen] at ht
  generalize u16 ((w.fds h).seekPos.tmod w.dataSize) = addr at haddr haddr_lt ht
  cases hsel : selectPage vt w h (u16 ((w.fds h).seekPos.tdiv w.dataSize)) with
  | mk r w₁ =>
    obtain ⟨hw1, hg1, hds1, hmax⟩ := hw.of_selectPage vt hp.page_le hok hsel
    rw [hsel] at ht
    cases r with
    | none =>
      cases ht
      exact ⟨hw1, by simp⟩
    | some x =>
      obtain ⟨p, hdr⟩ := x
      obtain ⟨hpg, hseek, hpage⟩ := hmax p hdr rfl
      obtain ⟨hs, hgo⟩ := storePiece_same vt ht
      refine ⟨hw1.same hs, fun hg => ⟨p, hdr, w₁, _, _, hg1, hg ▸ ht, ?_⟩⟩
      obtain ⟨rfl, hseek'⟩ := hgo hg
      have hlt := hp.lt
      have hnn := hp.nonneg
      have hbs : (buf.take (min buf.length (w.dataSize - addr))).length = min buf.length (w.dataSize - addr) := by
        simp
      rw [hbs, hseek, i32_of_lt (by omega) (by omega)] at hseek'
      rw [hbs]
      refine ⟨⟨by omega, by rw [length_drop]; omega, ?_⟩, by omega, hs.dataSize.trans hds1, hseek', ?_, ?_⟩
      · rw [hseek', hs.dataSize, hds1, hs.maxOff]
        exact u16_tdiv_le hnn hds (by omega) hpg
      · rw [hs.maxOff]
        exact hpg
      · rw [hs.page, hs.start, hpage]

theorem writeTurn_failed (hw : Writable w h) (buf : List UInt8)
    (hf : RelocationFails vt w h (u16 ((w.fds h).seekPos.tdiv w.dataSize))) :
    (writeTurn vt w h buf).1 = false ∧
      ¬ (writeTurn vt w h buf).2.2.pageArray.Perm (List.range (writeTurn vt w h buf).2.2.dev.blkCnt) := by
  obtain ⟨hnone, hbad⟩ := selectPage_failed vt hw hf
  unfold writeTurn
  dsimp only
  generalize selectPage vt w h (u16 ((w.fds h).seekPos.tdiv w.dataSize)) = r at hnone hbad ⊢
  obtain ⟨o, w'⟩ := r
  subst hnone
  exact ⟨rfl, hbad⟩

end Turn

/-! ## Whole calls -/

/-- The copies of the pages that the write loop overwrites succeed, as far as the loop goes. -/
def LoopCopiesSucceed : (fuel : ℕ) → BattFsSuper σ → (h : ℕ) → (buf : List UInt8) → Prop
  | 0, _, _, _ => True
  | fuel + 1, w, h, buf =>
    buf = [] ∨
      (¬ RelocationFails vt w h (u16 ((w.fds h).seekPos.tdiv w.dataSize)) ∧
        ∀ n w', writeTurn vt w h buf = (true, n, w') → LoopCopiesSucceed fuel w' h (buf.drop n))

/-- The copies of the pages that a `battfs_write` overwrites succeed. -/
def CopiesSucceed (w : BattFsSuper σ) (h : ℕ) (buf : List UInt8) : Prop :=
  if (w.fds h).size < (w.fds h).seekPos then
    ∀ w', fillGap vt w h = (true, w') → LoopCopiesSucceed vt buf.length w' h buf
  else LoopCopiesSucceed vt buf.length w h buf

/-- The map lists every block exactly once. -/
def Permuted (w : BattFsSuper σ) : Prop := w.pageArray.Perm (List.range w.dev.blkCnt)

/-- Either all copies succeed and the disk stays in order, or one fails and the map is no permutation. -/
theorem writeLoop_cases (fuel : ℕ) (w : BattFsSuper σ) (h : ℕ) (buf : List UInt8) (total : ℕ) (hw : Writable w h)
    (hp : InReach w h buf) :
    LoopCopiesSucceed vt fuel w h buf ∧ Writable (writeLoop vt fuel w h buf total).2 h ∨
      ¬ LoopCopiesSucceed vt fuel w h buf ∧ ¬ Permuted (writeLoop vt fuel w h buf total).2 := by
  induction fuel generalizing w buf total with
  | zero => exact Or.inl ⟨trivial, hw⟩
  | succ fuel ih =>
    unfold writeLoop LoopCopiesSucceed
    split_ifs with hb
    · exact Or.inl ⟨Or.inl hb, hw⟩
    · by_cases hf : RelocationFails vt w h (u16 ((w.fds h).seekPos.tdiv w.dataSize))
      · obtain ⟨hstop, hbad⟩ := writeTurn_failed vt hw buf hf
        generalize writeTurn vt w h buf = r at hstop hbad ⊢
        obtain ⟨go, n, w'⟩ := r
        subst hstop
        exact Or.inr ⟨by simp [hb, hf], hbad⟩
      · cases ht : writeTurn vt w h buf with
        | mk go x =>
          obtain ⟨n, w'⟩ := x
          obtain ⟨hw', hnext⟩ := hw.of_writeTurn vt hp hf ht
          cases go with
          | false => exact Or.inl ⟨Or.inr ⟨hf, by simp⟩, hw'⟩
          | true =>
            obtain ⟨p, hdr, w₁, addr, bs, -, -, hdone⟩ := hnext rfl
            simpa [hb, hf] using ih w' (buf.drop n) (total + n) hw' hdone.reach

variable {w : BattFsSuper σ} {w' : BattFsSuper σ}

/-- A page of zeros at its end leaves the file writable, -/
theorem Writable.of_allocZeroPage {h : ℕ} (hw : Writable w h) {ok : Bool} (ha : allocZeroPage vt w h = (ok, w')) :
    Writable w' h ∧ (ok = true → SameGeometry w.dev w'.dev ∧ w'.dataSize = w.dataSize ∧
      (w'.fds h).maxOff = (w.fds h).maxOff + 1 ∧ (w'.fds h).seekPos = (w.fds h).seekPos) := by
  have hin := hw.last_lt
  have hfree := hw.free_le
  have hcnt := hw.blkCnt_lt
  unfold allocZeroPage at ha
  dsimp only at ha
  cases hn : allocateNewPage w ((w.fds h).start + (w.fds h).maxOff + 1) (w.fds h).inode with
  | none =>
    rw [hn] at ha
    cases ha
    exact ⟨hw.same (SameMap.setError w h _), by simp⟩
  | some x =>
    obtain ⟨p, w₁⟩ := x
    rw [hn] at ha
    obtain ⟨-, hfps, hdev, hds, hopened, hfds, hstart, -⟩ := hw.toMapOk.of_allocateNewPage (by omega) hn
    have hst := hstart h rfl
    have hmx := (hfds h).2.1
    have hw1 : Writable w₁ h := ⟨hw.toDiskOk.of_allocateNewPage (by omega) hn, hopened ▸ hw.mem⟩
    have hs2 := SameMap.zeroPage vt p w₁.dataSize w₁
    have hfds2 := zeroPage_fds vt p w₁.dataSize w₁
    dsimp only at ha
    generalize zeroPage vt p w₁.dataSize w₁ = z at ha hs2 hfds2
    obtain ⟨okz, w₂⟩ := z
    dsimp only at hs2 hfds2
    cases okz with
    | false =>
      cases ha
      exact ⟨hw1.same (hs2.trans (SameMap.setError w₂ h _)), by simp⟩
    | true =>
      have hmax : u16 ((w₂.fds h).maxOff + 1 : ℕ) = (w.fds h).maxOff + 1 := by
        rw [hfds2, hmx, u16_of_lt (by omega)]
      dsimp only at ha
      push_cast at hmax
      rw [hmax] at ha
      generalize hw3 : setFd w₂ h _ = w3 at ha
      have hw3' : Writable w3 h := by
        rw [← hw3]
        refine (hw1.same hs2).setMaxOff ?_
        rw [hs2.start, hs2.freePageStart]
        omega
      generalize ({ inode := _, fill := _, pgoff := _, seq := _, fcs := _ } : BattFsPageHeader) = hdr at ha
      have hs4 := SameMap.writeHdr vt w3 p hdr
      have hfds4 := writeHdr_fds vt w3 p hdr
      generalize writeHdr vt w3 p hdr = r at ha hs4 hfds4
      obtain ⟨okh, w4⟩ := r
      dsimp only at hs4 hfds4
      cases okh with
      | false =>
        cases ha
        exact ⟨hw3'.same (hs4.trans (SameMap.setError w4 h _)), by simp⟩
      | true =>
        cases ha
        refine ⟨hw3'.same (hs4.trans (SameMap.setFd w4 h _ _ _ _)), fun _ => ⟨?_, ?_, ?_, ?_⟩⟩
        · refine SameGeometry.trans ?_ hs4.geometry
          rw [← hdev, ← hw3]
          exact hs2.geometry
        · rw [hs4.dataSize, ← hw3]
          exact hs2.dataSize.trans hds
        · simp [setFd, hfds4, ← hw3]
        · simp [setFd, hfds4, ← hw3, hfds2, (hfds h).2.2]

/-- and so does any number of them. -/
theorem Writable.of_allocMissing {m : ℕ} {h : ℕ} (hw : Writable w h) {ok : Bool}
    (ha : allocMissing vt m w h = (ok, w')) :
    Writable w' h ∧ (ok = true → SameGeometry w.dev w'.dev ∧ w'.dataSize = w.dataSize ∧
      (w'.fds h).maxOff = (w.fds h).maxOff + m ∧ (w'.fds h).seekPos = (w.fds h).seekPos) := by
  induction m generalizing w with
  | zero =>
    cases ha
    exact ⟨hw, fun _ => ⟨.refl _, rfl, rfl, rfl⟩⟩
  | succ m ih =>
    unfold allocMissing at ha
    cases hz : allocZeroPage vt w h with
    | mk okz w₁ =>
      rw [hz] at ha
      obtain ⟨hw1, hz1⟩ := hw.of_allocZeroPage vt hz
      cases okz with
      | false =>
        cases ha
        exact ⟨hw1, by simp⟩
      | true =>
        obtain ⟨hg, hds, hmx, hsk⟩ := hz1 rfl
        obtain ⟨hw', hrest⟩ := ih hw1 ha
        refine ⟨hw', fun hok => ?_⟩
        obtain ⟨hg', hds', hmx', hsk'⟩ := hrest hok
        exact ⟨hg.trans hg', hds'.trans hds, by omega, hsk'.trans hsk⟩

/-- The page at the seek position is the last one when the missing ones have been added to it. -/
theorem u16_of_missing {q : ℤ} {m : ℕ} (h : m + u16 (q - m) < 65536) : u16 q = m + u16 (q - m) := by
  unfold u16 at h ⊢
  omega

/-- The fill up to the seek position leaves the file writable, with the position on its last page. -/
theorem Writable.of_fillGap {h : ℕ} (hw : Writable w h) {ok : Bool} (hg : fillGap vt w h = (ok, w')) :
    Writable w' h ∧ (ok = true → SameGeometry w.dev w'.dev ∧ w'.dataSize = w.dataSize ∧
      (w'.fds h).seekPos = (w.fds h).seekPos ∧
      u16 ((w'.fds h).seekPos.tdiv w'.dataSize) = (w'.fds h).maxOff) := by
  have hin := hw.last_lt
  unfold fillGap at hg
  dsimp only at hg
  have hs1 := SameMap.readHdr vt w (w.page ((w.fds h).start + (w.fds h).maxOff))
  have hfds1 := readHdr_fds vt w (w.page ((w.fds h).start + (w.fds h).maxOff))
  generalize readHdr vt w (w.page ((w.fds h).start + (w.fds h).maxOff)) = r at hg hs1 hfds1
  obtain ⟨o, w₁⟩ := r
  have hw1 := hw.same hs1
  cases o with
  | none =>
    cases hg
    exact ⟨hw1.same (SameMap.setError w₁ h _), by simp⟩
  | some hdr =>
    dsimp only at hg
    cases hre : relocate vt w₁ ((w.fds h).start + (w.fds h).maxOff) ((w.fds h).start + (w.fds h).maxOff) with
    | none =>
      rw [hre] at hg
      cases hg
      exact ⟨hw1.same (SameMap.setError w₁ h _), by simp⟩
    | some x =>
      obtain ⟨p, okc, w₂⟩ := x
      rw [hre] at hg
      obtain ⟨hw2, hg2, hds2, hfds2⟩ := hw1.of_relocate vt (by rw [hs1.freePageStart]; exact hin) hre
      dsimp only at hg
      generalize hw3 : w₂.setPage _ p = w3 at hg hw2
      have hfds3 : w3.fds = w.fds := by rw [← hw3, ← hfds1, ← hfds2]; rfl
      have hds3 : w3.dataSize = w.dataSize := by rw [← hs1.dataSize, ← hds2, ← hw3]; rfl
      generalize u16 (min _ _) = n at hg
      have hs4 := SameMap.padPage vt p n w3 h hdr
      have hseek4 := padPage_seekPos vt p n w3 h hdr
      generalize padPage vt p n w3 h hdr = r at hg hs4 hseek4
      obtain ⟨o, w4⟩ := r
      cases o with
      | none =>
        cases hg
        exact ⟨hw2.same hs4, by simp⟩
      | some hdr' =>
        dsimp only at hg
        have hs5 := SameMap.writeHdr vt w4 p { hdr' with seq := hdr'.seq + 1 }
        have hfds5 := writeHdr_fds vt w4 p { hdr' with seq := hdr'.seq + 1 }
        generalize writeHdr vt w4 p { hdr' with seq := hdr'.seq + 1 } = r at hg hs5 hfds5
        obtain ⟨okh, w5⟩ := r
        have hw5 := (hw2.same hs4).same hs5
        cases okh with
        | false =>
          cases hg
          exact ⟨hw5.same (SameMap.setError w5 h _), by simp⟩
        | true =>
          have hds5 : w5.dataSize = w.dataSize := by rw [hs5.dataSize, hs4.dataSize, hds3]
          have hmx5 : (w5.fds h).maxOff = (w.fds h).maxOff := by rw [hs5.maxOff, hs4.maxOff, hfds3]
          have hsk5 : (w5.fds h).seekPos = (w.fds h).seekPos := by rw [hfds5, hseek4, hfds3]
          obtain ⟨hw', hend⟩ := hw5.of_allocMissing vt hg
          refine ⟨hw', fun hok => ?_⟩
          obtain ⟨hg', hds', hmx', hsk'⟩ := hend hok
          rw [hds5] at hds' hmx'
          rw [hsk5] at hsk'
          have hg3 : SameGeometry w.dev w3.dev := by
            rw [← hw3]
            exact hs1.geometry.trans hg2
          refine ⟨((hg3.trans hs4.geometry).trans hs5.geometry).trans hg', hds', hsk', ?_⟩
          have hlast := hw'.last_lt
          have hfree := hw'.free_le
          have hcnt := hw'.blkCnt_lt
          rw [hmx5] at hmx'
          rw [hds', hsk', hmx']
          exact u16_of_missing (by omega)

/-- The binary search leaves the map alone, and ends in the range it started with if the file is not there. -/
theorem findFileLoop_same (inode fuel first last : ℕ) (w : BattFsSuper σ) (hle : first ≤ last) :
    SameMap w (findFileLoop vt inode fuel w first last).2 ∧
      ((findFileLoop vt inode fuel w first last).1.1 = false →
        (findFileLoop vt inode fuel w first last).1.2 ≤ last) := by
  induction fuel generalizing w first last with
  | zero => exact ⟨SameMap.refl w, fun _ => Nat.le_refl _⟩
  | succ fuel ih =>
    unfold findFileLoop
    split_ifs with hlt
    · have hs := SameMap.readHdr vt w (w.page ((first + last) / 2))
      dsimp only
      generalize readHdr vt w (w.page ((first + last) / 2)) = r at hs ⊢
      obtain ⟨o, w₁⟩ := r
      cases o with
      | none => exact ⟨hs, fun _ => Nat.le_refl _⟩
      | some hdr =>
        dsimp only
        split_ifs
        · exact ⟨hs, by simp⟩
        · obtain ⟨hs', hpos⟩ := ih _ _ w₁ (by omega : (first + last) / 2 + 1 ≤ last)
          exact ⟨hs.trans hs', hpos⟩
        · obtain ⟨hs', hpos⟩ := ih _ _ w₁ (by omega : first ≤ (first + last) / 2)
          exact ⟨hs.trans hs', fun hf => Nat.le_trans (hpos hf) (by omega)⟩
    · exact ⟨SameMap.refl w, fun _ => Nat.le_refl _⟩

/-- Counting a file's pages reads the map only. -/
theorem countFileSize_same (inode n pos : ℕ) (w : BattFsSuper σ) (size : ℤ) :
    SameMap w (countFileSize vt inode n pos w size).2 := by
  induction n generalizing pos w size with
  | zero => exact SameMap.refl w
  | succ n ih =>
    have hs := SameMap.readHdr vt w (w.page pos)
    unfold countFileSize
    generalize readHdr vt w (w.page pos) = r at hs ⊢
    obtain ⟨o, w₁⟩ := r
    cases o with
    | none => exact hs
    | some hdr =>
      dsimp only
      split_ifs
      · exact hs.trans (ih _ w₁ _)
      · exact hs

/-- What happens to a handle that is not open does not matter. -/
theorem DiskOk.setFd (hw : DiskOk w) {h : ℕ} (hh : h ∉ w.opened) (fd : BattFs) : DiskOk (w.setFd h fd) := by
  refine ⟨⟨hw.perm, hw.free_le⟩, hw.blkCnt_lt, hw.dataSize_pos, hw.dataSize_lt, fun g hg => ?_⟩
  have hgh : g ≠ h := fun heq => hh (heq ▸ hg)
  simpa [LastUsed, BattFsSuper.setFd, hgh] using hw.opened_used g hg

/-- Opening a file keeps the map in order, and the disk if the file's last page is in its used part. -/
theorem DiskOk.of_openAt (hw : DiskOk w) {h : ℕ} (hh : h ∉ w.opened) (inode startPos : ℕ) :
    MapOk (openAt vt w h inode startPos).2 ∧
      (LastUsed (openAt vt w h inode startPos).2 h → DiskOk (openAt vt w h inode startPos).2) := by
  unfold openAt
  have hs := countFileSize_same vt inode (w.freePageStart - startPos) startPos w 0
  generalize countFileSize vt inode (w.freePageStart - startPos) startPos w 0 = r at hs ⊢
  obtain ⟨o, w₁⟩ := r
  have hw₁ := hw.same hs
  have hfail fd : MapOk (w₁.setFd h fd) ∧ (LastUsed (w₁.setFd h fd) h → DiskOk (w₁.setFd h fd)) :=
    have hok := hw₁.setFd (hs.opened ▸ hh) fd
    ⟨hok.toMapOk, fun _ => hok⟩
  cases o with
  | none => exact hfail _
  | some size =>
    dsimp only
    split_ifs
    · exact hfail _
    · refine ⟨⟨hw₁.perm, hw₁.free_le⟩, fun hlast => ?_⟩
      refine ⟨⟨hw₁.perm, hw₁.free_le⟩, hw₁.blkCnt_lt, hw₁.dataSize_pos, hw₁.dataSize_lt, fun g hg => ?_⟩
      by_cases hgh : g = h
      · exact hgh ▸ hlast
      · have hmem : g ∈ w₁.opened := by
          rcases mem_append.mp hg with hg | hg
          · exact (takeWhile_sublist _).mem hg
          · exact (dropWhile_sublist _).mem ((mem_cons.mp hg).resolve_left hgh)
        simpa [LastUsed, BattFsSuper.setFd, hgh] using hw₁.opened_used g hmem

/-- The same of `battfs_fileopen`, whether it finds the file or creates it. -/
theorem DiskOk.of_fileopen (hw : DiskOk w) {h : ℕ} (hh : h ∉ w.opened) (inode : ℕ) (create : Bool) :
    MapOk (battfsFileopen vt w h inode create).2 ∧ (LastUsed (battfsFileopen vt w h inode create).2 h →
      DiskOk (battfsFileopen vt w h inode create).2) := by
  unfold battfsFileopen findFile
  have hw₀ := hw.setFd hh ⟨0, 0, 0, 0, 0, []⟩
  have hh₀ : h ∉ (w.setFd h ⟨0, 0, 0, 0, 0, []⟩).opened := hh
  generalize w.setFd h ⟨0, 0, 0, 0, 0, []⟩ = w₀ at hw₀ hh₀ ⊢
  obtain ⟨hs, hpos⟩ := findFileLoop_same vt inode w₀.freePageStart 0 w₀.freePageStart w₀ (Nat.zero_le _)
  dsimp only
  generalize findFileLoop vt inode w₀.freePageStart w₀ 0 w₀.freePageStart = r at hs hpos ⊢
  obtain ⟨⟨found, startPos⟩, w₁⟩ := r
  have hw₁ := hw₀.same hs
  have hstop {w' : BattFsSuper σ} (hok : DiskOk w') : MapOk w' ∧ (LastUsed w' h → DiskOk w') :=
    ⟨hok.toMapOk, fun _ => hok⟩
  cases found with
  | true => exact hw₁.of_openAt vt (hs.opened ▸ hh₀) inode startPos
  | false =>
    dsimp only
    split_ifs
    · exact hstop (hw₁.same (SameMap.setError w₁ h _))
    · cases ha : allocateNewPage w₁ startPos inode with
      | none => exact hstop (hw₁.same (SameMap.setError w₁ h _))
      | some x =>
        obtain ⟨p, w₂⟩ := x
        have hle : startPos ≤ w₁.freePageStart := by rw [hs.freePageStart]; exact hpos rfl
        obtain ⟨-, -, -, -, hopened, -⟩ := hw₁.toMapOk.of_allocateNewPage hle ha
        dsimp only
        generalize ({ inode := _, fill := _, pgoff := _, seq := _, fcs := _ } : BattFsPageHeader) = hdr
        have hs₃ := SameMap.writeHdr vt w₂ (w₂.page startPos) hdr
        have hw₃ := (hw₁.of_allocateNewPage hle ha).same hs₃
        generalize writeHdr vt w₂ (w₂.page startPos) hdr = r at hs₃ hw₃ ⊢
        obtain ⟨okh, w₃⟩ := r
        cases okh with
        | false => exact hstop (hw₃.same (SameMap.setError w₃ h _))
        | true => exact hw₃.of_openAt vt (by rw [hs₃.opened, hopened, hs.opened]; exact hh₀) inode startPos

/-- The position at the start of a call that does not begin with a gap. -/
theorem Writable.inReach {h : ℕ} {buf : List UInt8} (hw : Writable w h) (hnn : 0 ≤ (w.fds h).seekPos)
    (hle : (w.fds h).seekPos ≤ ((w.fds h).maxOff + 1) * w.dataSize)
      (hlen : (w.fds h).seekPos + buf.length < 2147483648) :
    InReach w h buf := by
  refine ⟨hnn, hlen, ?_⟩
  have hds := hw.dataSize_pos
  have hq : (w.fds h).seekPos / w.dataSize ≤ (w.fds h).maxOff + 1 := Int.ediv_le_of_le_mul (by omega) hle
  have hq0 : 0 ≤ (w.fds h).seekPos / w.dataSize := Int.ediv_nonneg hnn (by omega)
  rw [Int.tdiv_eq_ediv_of_nonneg hnn]
  unfold u16
  omega

/-- The position of a handle and the data to write: a position inside the file is at most one page behind its last page,
and no position overflows. -/
structure WriteOk (w : BattFsSuper σ) (h : ℕ) (buf : List UInt8) : Prop where
  seek : (w.fds h).seekPos ≤ (w.fds h).size → (w.fds h).seekPos ≤ ((w.fds h).maxOff + 1) * w.dataSize
  len : (w.fds h).seekPos + buf.length < 2147483648

/-- A whole call: the disk stays in order, or a copy fails and the map is no permutation. -/
theorem battfsWrite_cases {h : ℕ} {buf : List UInt8} (hw : Writable w h) (hok : WriteOk w h buf) :
    (0 ≤ (w.fds h).seekPos → CopiesSucceed vt w h buf) ∧ Writable (battfsWrite vt w h buf).2 h ∨
      ¬ (0 ≤ (w.fds h).seekPos → CopiesSucceed vt w h buf) ∧ ¬ Permuted (battfsWrite vt w h buf).2 := by
  unfold battfsWrite CopiesSucceed
  by_cases hneg : (w.fds h).seekPos < 0
  · rw [if_pos hneg]
    exact Or.inl ⟨by omega, hw.same (SameMap.setError w h _)⟩
  · have hnn : 0 ≤ (w.fds h).seekPos := by omega
    have hlen := hok.len
    simp only [if_neg hneg, hnn, forall_const]
    by_cases hgap : (w.fds h).size < (w.fds h).seekPos
    · rw [if_pos hgap, if_pos hgap]
      cases hg : fillGap vt w h with
      | mk ok w₁ =>
        obtain ⟨hw₁, hend⟩ := hw.of_fillGap vt hg
        cases ok with
        | false => exact Or.inl ⟨by simp, hw₁⟩
        | true =>
          obtain ⟨-, hds, hsk, hpg⟩ := hend rfl
          have hp : InReach w₁ h buf := ⟨by omega, by omega, by omega⟩
          simpa using writeLoop_cases vt buf.length w₁ h buf 0 hw₁ hp
    · rw [if_neg hgap, if_neg hgap]
      exact writeLoop_cases vt _ w h buf 0 hw (hw.inReach hnn (hok.seek (by omega)) hlen)

/-! ## Runs -/

/-- The states of a disk after a mount that left a good map: files are opened, with their last pages in the used part,
and written, with copies that succeed; what else is done (reading, seeking, flushing) leaves the map alone, and closing
takes a handle from the list. -/
inductive FsRun : BattFsSuper σ → Prop
  | mount {dev : KBlock} {raw : σ} {fds : ℕ → BattFs} {w : BattFsSuper σ} (hm : battfsMount vt dev raw fds = .ok w)
      (hw : DiskOk w) : FsRun w
  | fileopen {w : BattFsSuper σ} {g inode : ℕ} {create : Bool} (hr : FsRun w) (hg : g ∉ w.opened)
      (hlast : LastUsed (battfsFileopen vt w g inode create).2 g) : FsRun (battfsFileopen vt w g inode create).2
  | write {w : BattFsSuper σ} {h : ℕ} {buf : List UInt8} (hr : FsRun w) (hh : h ∈ w.opened) (hok : WriteOk w h buf)
      (hc : 0 ≤ (w.fds h).seekPos → CopiesSucceed vt w h buf) : FsRun (battfsWrite vt w h buf).2
  | other {w w' : BattFsSuper σ} (hr : FsRun w) (hs : SameMap w w') : FsRun w'
  | close {w : BattFsSuper σ} {h : ℕ} (hr : FsRun w) : FsRun { w with opened := w.opened.erase h }

/-- In every run the disk is in order. -/
theorem FsRun.diskOk (hr : FsRun vt w) : DiskOk w := by
  induction hr with
  | mount hm hw => exact hw
  | fileopen hr hg hlast ih => exact (ih.of_fileopen vt hg _ _).2 hlast
  | write hr hh hok hc ih =>
    exact ((battfsWrite_cases vt ⟨ih, hh⟩ hok).resolve_right fun hbad => hbad.1 hc).2.toDiskOk
  | other hr hs ih => exact ih.same hs
  | close hr ih =>
    exact ⟨⟨ih.perm, ih.free_le⟩, ih.blkCnt_lt, ih.dataSize_pos, ih.dataSize_lt,
      fun g hg => ih.opened_used g (mem_of_mem_erase hg)⟩

/-- **The allocation map under device errors**: in every state of a run, `battfs_write` through an open handle leaves a
permutation of the blocks exactly if every copy of a page that it overwrites succeeds; all other failures are harmless.
`battfs_fileopen` always leaves a permutation. -/
theorem allocMap_perm_iff {w : BattFsSuper σ} (hr : FsRun vt w) :
    (∀ h ∈ w.opened, ∀ buf, WriteOk w h buf →
      (Permuted (battfsWrite vt w h buf).2 ↔ (0 ≤ (w.fds h).seekPos → CopiesSucceed vt w h buf))) ∧
    ∀ g ∉ w.opened, ∀ inode create, Permuted (battfsFileopen vt w g inode create).2 := by
  refine ⟨fun h hh buf hok => ?_, fun g hg inode create => ((hr.diskOk vt).of_fileopen vt hg inode create).1.perm⟩
  rcases battfsWrite_cases vt ⟨hr.diskOk vt, hh⟩ hok with ⟨hc, hw⟩ | ⟨hc, hbad⟩
  · exact iff_of_true hw.perm hc
  · exact iff_of_false hbad hc

/-! ## A page that cannot be copied -/

/-- A device of three blocks with two bytes of data each. Block 1 holds a file of one byte, the other blocks are erased;
the data of block 1 cannot be read any more. -/
def wornDriver : KBlockVTable Unit where
  readDirect _ idx offset size :=
    if idx = 1 then
      if offset < 2 then (([], 0), ())
      else ((battfsToDisk ({ inode := 0, fill := 1, pgoff := 0, seq := 0, fcs := 0 } : BattFsPageHeader).sealed, size),
        ())
    else ((List.replicate size 255, size), ())
  writeDirect _ _ bs _ := (bs.length, ())

/-- The device descriptor, with block 0 in the cache. -/
def wornDevice : KBlock where
  buffered := true
  dirty := false
  partialWrite := true
  buf := fun _ => 255
  blkStart := 0
  currBlk := 0
  blkSize := 14
  blkCnt := 3

/-- The mount of that device. -/
def wornMount : Except MountError (BattFsSuper Unit) :=
  battfsMount wornDriver wornDevice () fun _ => ⟨0, 0, 0, 0, 0, []⟩

/-- The map after that device was mounted, its file opened, and one byte of it was to be overwritten. -/
def wornMap : Except MountError (List ℕ) :=
  match wornMount with
  | .ok w => .ok (battfsWrite wornDriver (battfsFileopen wornDriver w 0 0 false).2 0 [7]).2.pageArray
  | .error e => .error e

theorem worn_block_listed_twice : ∃ pages, wornMap = .ok pages ∧ ¬ pages.Perm (List.range wornDevice.blkCnt) := by
  refine ⟨[1, 2, 1], ?_, ?_⟩
  · decide
  · decide

/-- The mount and the opening of the file are a run, and what the write does to the map tells that its copy fails. -/
theorem allocMap_perm_iff_worn : ∃ w, FsRun wornDriver w ∧ w.opened = [0] ∧ ¬ CopiesSucceed wornDriver w 0 [7] := by
  have hfacts : (match wornMount with
      | .ok w =>
        let w₁ := (battfsFileopen wornDriver w 0 0 false).2
        let w₂ := (battfsWrite wornDriver w₁ 0 [7]).2
        decide (w.pageArray.Perm (List.range w.dev.blkCnt) ∧ w.freePageStart ≤ w.dev.blkCnt ∧ w.dev.blkCnt < 65534 ∧
          0 < w.dataSize ∧ w.dataSize < 65536 ∧ w.opened = [] ∧ w₁.opened = [0] ∧
          (w₁.fds 0).start + (w₁.fds 0).maxOff < w₁.freePageStart ∧ (w₁.fds 0).seekPos = 0 ∧
          ¬ w₂.pageArray.Perm (List.range w₂.dev.blkCnt))
      | .error _ => false) = true := by
    decide
  cases hm : wornMount with
  | error e => simp [hm] at hfacts
  | ok w =>
    rw [hm] at hfacts
    obtain ⟨hperm, hfree, hcnt, hpos, hlt, hnone, hopened, hlast, hseek, hbad⟩ := of_decide_eq_true hfacts
    have hw : DiskOk w := ⟨⟨hperm, hfree⟩, hcnt, hpos, hlt, by simp [hnone]⟩
    have hrun : FsRun wornDriver (battfsFileopen wornDriver w 0 0 false).2 :=
      .fileopen (.mount hm hw) (by simp [hnone]) hlast
    refine ⟨_, hrun, hopened, fun hc => hbad ?_⟩
    refine ((allocMap_perm_iff wornDriver hrun).1 0 (by simp [hopened]) [7] ⟨fun _ => ?_, ?_⟩).mpr fun _ => hc
    · rw [hseek]
      positivity
    · rw [hseek]
      decide

end Bertos
