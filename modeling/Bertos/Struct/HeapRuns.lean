import Bertos.Struct.Heap

/-!
# Runs of the heap

A run of the heap from `heap_init` (`HeapRun`): blocks are allocated and freed in any order, with the sizes they were
allocated with, and the owner of a live block writes what it likes into it. The free chunks and the live blocks are a
partition of the buffer in every state of every run (`HeapInv`, `heap_partition`). A block is as large as it was asked
for (`heap_alloc_owns`), unless the size wraps (`heap_alloc_wraps`).
-/

namespace Bertos

open List

/-- A live block as the interval it occupies. -/
def HeapArch.block (A : HeapArch) (b : ℕ × A.Size) : ℕ × ℕ :=
  (b.1, blockSize A.memChunk b.2.toNat)

/-- **Runs of the heap** in a buffer: the heap reached, and the live blocks with the sizes they were asked for. A debug
build fills blocks when they are allocated and freed, which is a `write` before or after the step. -/
inductive HeapRun (A : HeapArch) (base total : ℕ) : Heap → List (ℕ × A.Size) → Prop
  | init {h₀ h : Heap} (hs : heapInit A h₀ base total = .ok h) : HeapRun A base total h []
  | alloc {h h' : Heap} {live : List (ℕ × A.Size)} {n : A.Size} {fuel p : ℕ} (run : HeapRun A base total h live)
      (hn : n.toNat + A.memChunk ≤ A.sizeMax + 1) (hs : heapAllocmem A fuel h n = .ok (h', p)) :
      HeapRun A base total h' (if p = 0 then live else (p, n) :: live)
  | free {h h' : Heap} {live : List (ℕ × A.Size)} {b : ℕ × A.Size} {fuel : ℕ} (run : HeapRun A base total h live)
      (hb : b ∈ live) (hs : heapFreemem A fuel h b.1 b.2 = .ok h') : HeapRun A base total h' (live.erase b)
  | write {h h' : Heap} {live : List (ℕ × A.Size)} (run : HeapRun A base total h live)
      (hfree : h'.freeList = h.freeList)
      (hs : ∀ a, (∀ b ∈ live, ¬ (b.1 ≤ a ∧ a < b.1 + (A.block b).2)) → SameHeader h h' a) : HeapRun A base total h' live

/-! ## Allocation on the list of chunks -/

section
variable {size q : ℕ} {l l' : List (ℕ × ℕ)}

/-- An allocation fails exactly if all chunks are too small. -/
theorem allocChunks_eq_none : allocChunks size l = none ↔ ∀ x ∈ l, x.2 < size := by
  induction l with
  | nil => simp [allocChunks]
  | cons x l ih =>
    simp only [allocChunks, forall_mem_cons]
    by_cases hfit : size ≤ x.2
    · rw [if_pos hfit]
      by_cases heq : x.2 = size <;> simp [heq]
      omega
    · rw [if_neg hfit]
      simp only [Option.map_eq_none_iff, ih]
      exact ⟨fun h => ⟨Nat.not_le.mp hfit, h⟩, fun h => h.2⟩

/-- The chunk that is found is taken as a whole, or cut at its end. -/
theorem allocChunks_perm (h : allocChunks size l = some (q, l')) :
    ∃ x r, l.Perm (x :: r) ∧ (x.2 = size ∧ q = x.1 ∧ l'.Perm r ∨
      size < x.2 ∧ q = x.1 + (x.2 - size) ∧ l'.Perm ((x.1, x.2 - size) :: r)) := by
  induction l generalizing l' with
  | nil => cases h
  | cons x l ih =>
    rw [allocChunks] at h
    by_cases hfit : size ≤ x.2
    · rw [if_pos hfit] at h
      by_cases heq : x.2 = size
      · rw [if_pos heq] at h
        cases h
        exact ⟨x, l, List.Perm.refl _, .inl ⟨heq, rfl, List.Perm.refl _⟩⟩
      · rw [if_neg heq] at h
        cases h
        exact ⟨x, l, List.Perm.refl _, .inr ⟨by omega, rfl, List.Perm.refl _⟩⟩
    · rw [if_neg hfit] at h
      obtain ⟨⟨q', l''⟩, hr, h⟩ := Option.map_eq_some_iff.mp h
      cases h
      obtain ⟨y, r, hl, hcase⟩ := ih hr
      refine ⟨y, x :: r, (hl.cons x).trans (List.Perm.swap y x r), ?_⟩
      rcases hcase with ⟨hsz, hq, hp⟩ | ⟨hsz, hq, hp⟩
      · exact .inl ⟨hsz, hq, hp.cons x⟩
      · exact .inr ⟨hsz, hq, (hp.cons x).trans (List.Perm.swap _ x r)⟩

/-- A chunk that is left starts where it did. -/
theorem mem_allocChunks (h : allocChunks size l = some (q, l')) {y : ℕ × ℕ} (hy : y ∈ l') :
    ∃ z ∈ l, y.1 = z.1 ∧ (y.2 = z.2 ∨ y.2 = z.2 - size) := by
  obtain ⟨x, r, hl, ⟨-, -, hp⟩ | ⟨-, -, hp⟩⟩ := allocChunks_perm h
  · have hr := hp.mem_iff.mp hy
    exact ⟨y, hl.mem_iff.mpr (mem_cons_of_mem x hr), rfl, .inl rfl⟩
  · rcases mem_cons.mp (hp.mem_iff.mp hy) with rfl | hr
    · exact ⟨x, hl.mem_iff.mpr mem_cons_self, rfl, .inr rfl⟩
    · exact ⟨y, hl.mem_iff.mpr (mem_cons_of_mem x hr), rfl, .inl rfl⟩

/-- Allocating brings no chunks together. -/
theorem allocChunks_gap (h : allocChunks size l = some (q, l')) (hg : l.Pairwise Gap) : l'.Pairwise Gap := by
  induction l generalizing l' with
  | nil => cases h
  | cons x l ih =>
    obtain ⟨hx, hg'⟩ := pairwise_cons.mp hg
    rw [allocChunks] at h
    by_cases hfit : size ≤ x.2
    · rw [if_pos hfit] at h
      by_cases heq : x.2 = size
      · rw [if_pos heq] at h
        cases h
        exact hg'
      · rw [if_neg heq] at h
        cases h
        refine pairwise_cons.mpr ⟨?_, hg'⟩
        intro y hy
        have hxy : x.1 + x.2 < y.1 := hx y hy
        show x.1 + (x.2 - size) < y.1
        omega
    · rw [if_neg hfit] at h
      obtain ⟨⟨q', l''⟩, hr, h⟩ := Option.map_eq_some_iff.mp h
      cases h
      refine pairwise_cons.mpr ⟨?_, ih hr hg'⟩
      intro y hy
      obtain ⟨z, hz, hyz, -⟩ := mem_allocChunks hr hy
      have hxz : x.1 + x.2 < z.1 := hx z hz
      show x.1 + x.2 < y.1
      omega

end

/-! ## Freeing on the list of chunks -/

section
variable {b e mem size : ℕ} {x y : ℕ × ℕ} {l r : List (ℕ × ℕ)}

/-- Merging keeps the partition. -/
theorem mergeNext_partition (h : Partition b e (x :: (l ++ r))) : Partition b e (mergeNext x l ++ r) := by
  cases l with
  | nil => exact h
  | cons y l =>
    rw [mergeNext]
    split
    · next hadj =>
      rw [show y = (x.1 + x.2, y.2) from Prod.ext hadj.symm rfl] at h
      exact h.merge
    · exact h

/-- Freeing keeps the partition. -/
theorem freeChunks_partition (h : Partition b e ((mem, size) :: (l ++ r))) :
    Partition b e (freeChunks mem size l ++ r) := by
  induction l generalizing r with
  | nil => exact h
  | cons x l ih =>
    rw [freeChunks]
    split
    · exact mergeNext_partition h
    split
    · next hadj =>
      subst hadj
      exact mergeNext_partition (h.perm (List.Perm.swap _ _ _)).merge
    · have hmove : ((mem, size) :: (x :: l ++ r)).Perm ((mem, size) :: (l ++ x :: r)) :=
        perm_middle.symm.cons _
      exact (ih (h.perm hmove)).perm perm_middle

theorem mem_mergeNext (hy : y ∈ mergeNext x l) : y.1 = x.1 ∨ y ∈ l := by
  cases l with
  | nil => exact .inl (congrArg Prod.fst (mem_singleton.mp hy))
  | cons z l =>
    rw [mergeNext] at hy
    split at hy
    · rcases mem_cons.mp hy with rfl | hy
      · exact .inl rfl
      · exact .inr (mem_cons_of_mem z hy)
    · rcases mem_cons.mp hy with rfl | hy
      · exact .inl rfl
      · exact .inr hy

/-- The chunks after a block is freed begin where chunks began before, or where the block begins. -/
theorem mem_freeChunks (hy : y ∈ freeChunks mem size l) : y.1 = mem ∨ ∃ z ∈ l, y.1 = z.1 := by
  induction l with
  | nil => exact .inl (congrArg Prod.fst (mem_singleton.mp hy))
  | cons x l ih =>
    rw [freeChunks] at hy
    split at hy
    · rcases mem_mergeNext hy with hy | hy
      · exact .inl hy
      · exact .inr ⟨y, hy, rfl⟩
    split at hy
    · rcases mem_mergeNext hy with hy | hy
      · exact .inr ⟨x, mem_cons_self, hy⟩
      · exact .inr ⟨y, mem_cons_of_mem x hy, rfl⟩
    · rcases mem_cons.mp hy with rfl | hy
      · exact .inr ⟨y, mem_cons_self, rfl⟩
      · rcases ih hy with hy | ⟨z, hz, hyz⟩
        · exact .inl hy
        · exact .inr ⟨z, mem_cons_of_mem x hz, hyz⟩

/-- After merging, the next chunk is no neighbour. -/
theorem mergeNext_gap (hx : ∀ y ∈ l, x.1 + x.2 ≤ y.1) (hg : l.Pairwise Gap) : (mergeNext x l).Pairwise Gap := by
  cases l with
  | nil => exact pairwise_singleton Gap x
  | cons y l =>
    obtain ⟨hy, hg'⟩ := pairwise_cons.mp hg
    have hxy := hx y mem_cons_self
    rw [mergeNext]
    split
    · refine pairwise_cons.mpr ⟨?_, hg'⟩
      intro z hz
      have hyz : y.1 + y.2 < z.1 := hy z hz
      show x.1 + (x.2 + y.2) < z.1
      omega
    · exact pairwise_cons.mpr ⟨forall_le_of_gap hy (show x.1 + x.2 < y.1 by omega), hg⟩

/-- Freeing leaves no neighbours. -/
theorem freeChunks_gap (hsz : 0 < size) (hg : l.Pairwise Gap) (hpos : ∀ x ∈ l, 0 < x.2)
    (hap : ∀ x ∈ l, Apart x (mem, size)) : (freeChunks mem size l).Pairwise Gap := by
  induction l with
  | nil => exact pairwise_singleton Gap _
  | cons x l ih =>
    obtain ⟨hx, hg'⟩ := pairwise_cons.mp hg
    have hap' : ∀ y ∈ x :: l, y.1 + y.2 ≤ mem ∨ mem + size ≤ y.1 := hap
    have hxm := hap' x mem_cons_self
    rw [freeChunks]
    split
    · next hlt =>
      exact mergeNext_gap (forall_le_of_gap hx (show mem + size ≤ x.1 by omega)) hg
    split
    · next hlt hadj =>
      refine mergeNext_gap ?_ hg'
      intro y hy
      have hxy : x.1 + x.2 < y.1 := hx y hy
      have hym := hap' y (mem_cons_of_mem x hy)
      have hpy := hpos y (mem_cons_of_mem x hy)
      show x.1 + (x.2 + size) ≤ y.1
      omega
    · next hlt hadj =>
      refine pairwise_cons.mpr ⟨?_, ih hg' (fun y hy => hpos y (mem_cons_of_mem x hy))
        fun y hy => hap y (mem_cons_of_mem x hy)⟩
      intro y hy
      show x.1 + x.2 < y.1
      rcases mem_freeChunks hy with hy | ⟨z, hz, hyz⟩
      · omega
      · have hxz : x.1 + x.2 < z.1 := hx z hz
        omega

theorem mergeNext_dvd {g : ℕ} (hx : g ∣ x.2) (hl : ∀ y ∈ l, g ∣ y.2) : ∀ y ∈ mergeNext x l, g ∣ y.2 := by
  cases l with
  | nil => simpa [mergeNext] using hx
  | cons y l =>
    rw [forall_mem_cons] at hl
    rw [mergeNext]
    split
    · exact forall_mem_cons.mpr ⟨Nat.dvd_add hx hl.1, hl.2⟩
    · exact forall_mem_cons.mpr ⟨hx, forall_mem_cons.mpr hl⟩

/-- Freeing keeps the granularity. -/
theorem freeChunks_dvd {g : ℕ} (hsz : g ∣ size) (hl : ∀ y ∈ l, g ∣ y.2) : ∀ y ∈ freeChunks mem size l, g ∣ y.2 := by
  induction l with
  | nil => simpa [freeChunks] using hsz
  | cons x l ih =>
    have hl' := forall_mem_cons.mp hl
    rw [freeChunks]
    split
    · exact mergeNext_dvd hsz hl
    split
    · exact mergeNext_dvd (Nat.dvd_add hl'.1 hsz) hl'.2
    · exact forall_mem_cons.mpr ⟨hl'.1, ih hl'.2⟩

end

/-! ## More fuel gives the same result -/

/-- More fuel changes nothing. -/
theorem heapAllocLoop_mono {size fuel p : ℕ} {prev : Option ℕ} {h : Heap} {r : Heap × ℕ} (k : ℕ)
    (hr : heapAllocLoop size fuel prev p h = .ok r) : heapAllocLoop size (fuel + k) prev p h = .ok r := by
  induction fuel generalizing prev p with
  | zero => cases hr
  | succ fuel ih =>
    rw [Nat.succ_add]
    unfold heapAllocLoop at hr ⊢
    split
    · next h0 => rwa [if_pos h0] at hr
    · next h0 =>
      rw [if_neg h0] at hr
      split
      · next hfit => rwa [if_pos hfit] at hr
      · next hfit =>
        rw [if_neg hfit] at hr
        exact ih hr

theorem heapFreeWalk_mono {mem fuel prev p : ℕ} {h : Heap} (k : ℕ) (hr : heapFreeWalk mem h fuel prev = .ok p) :
    heapFreeWalk mem h (fuel + k) prev = .ok p := by
  induction fuel generalizing prev with
  | zero => cases hr
  | succ fuel ih =>
    rw [Nat.succ_add]
    unfold heapFreeWalk at hr ⊢
    split
    · next hc =>
      rw [if_pos hc] at hr
      exact ih hr
    · next hc => rwa [if_neg hc] at hr

/-- More fuel changes no result. -/
theorem heapFreeRounded_mono {mem size fuel : ℕ} {h h' : Heap} (k : ℕ)
    (hr : heapFreeRounded fuel h mem size = .ok h') : heapFreeRounded (fuel + k) h mem size = .ok h' := by
  unfold heapFreeRounded at hr ⊢
  split
  · next hc => rwa [if_pos hc] at hr
  · next hc =>
    rw [if_neg hc] at hr
    split
    · next hf => rwa [if_pos hf] at hr
    · next hf =>
      rw [if_neg hf] at hr
      cases hw : heapFreeWalk mem h fuel h.freeList with
      | error e =>
        rw [hw] at hr
        cases hr
      | ok p =>
        rw [hw] at hr
        rw [heapFreeWalk_mono k hw]
        exact hr

/-! ## The invariant -/

theorem blockSize_pos {g : ℕ} (n : ℕ) (hg : 0 < g) : 0 < blockSize g n := by
  unfold blockSize
  split
  · exact hg
  · exact Nat.mul_pos (Nat.div_pos (by omega) hg) hg

theorem dvd_blockSize (g n : ℕ) : g ∣ blockSize g n := by
  unfold blockSize
  split
  · exact Nat.dvd_refl g
  · exact Nat.dvd_mul_left g _

/-- **The invariant of the heap**: its free chunks and the live blocks are a partition of the buffer. -/
structure HeapInv (A : HeapArch) (base total : ℕ) (h : Heap) (live : List (ℕ × A.Size)) (chunks : List (ℕ × ℕ)) :
    Prop where
  linked : Linked h h.freeList chunks
  gap : chunks.Pairwise Gap
  dvd : ∀ c ∈ chunks, A.memChunk ∣ c.2
  fits : ∀ b ∈ live, b.2.toNat + A.memChunk ≤ A.sizeMax + 1
  part : Partition base (base + total) (chunks ++ live.map A.block)

namespace HeapInv

variable {A : HeapArch} {base total : ℕ} {h h' : Heap} {live : List (ℕ × A.Size)} {chunks : List (ℕ × ℕ)}

section
variable (hi : HeapInv A base total h live chunks)
include hi

theorem mem_chunk {c : ℕ × ℕ} (hc : c ∈ chunks) : base ≤ c.1 ∧ c.1 + c.2 ≤ base + total ∧ 0 < c.2 :=
  hi.part.mem (mem_append_left _ hc)

theorem mem_live {b : ℕ × A.Size} (hb : b ∈ live) :
    base ≤ b.1 ∧ b.1 + (A.block b).2 ≤ base + total ∧ 0 < (A.block b).2 :=
  hi.part.mem (mem_append_right _ (mem_map_of_mem hb))

/-- Chunks and live blocks do not overlap. -/
theorem apart {c : ℕ × ℕ} {b : ℕ × A.Size} (hc : c ∈ chunks) (hb : b ∈ live) : Apart c (A.block b) :=
  (pairwise_append.mp hi.part.apart).2.2 c hc _ (mem_map_of_mem hb)

theorem nodup : (chunks.map Prod.fst).Nodup := by
  refine pairwise_map.mpr (hi.gap.imp ?_)
  intro x y hxy
  have hxy' : x.1 + x.2 < y.1 := hxy
  omega

end

/-- **The initial chunk** is the whole buffer. -/
theorem init {h₀ : Heap} (hbase : 0 < base) (htotal : 0 < total) (hdvd : A.memChunk ∣ total)
    (hs : heapInit A h₀ base total = .ok h) : HeapInv A base total h [] [(base, total)] := by
  unfold heapInit at hs
  split at hs
  · cases hs
    refine ⟨⟨rfl, by simp only; omega, by simp, by simp [Linked]⟩, pairwise_singleton Gap _, ?_, nofun, ?_⟩
    · simpa using hdvd
    · exact Partition.singleton htotal
  · cases hs

section
variable (hi : HeapInv A base total h live chunks)
include hi

/-- **Allocating** keeps the invariant, with the new block live. -/
theorem alloc {n : A.Size} {fuel p : ℕ} (hn : n.toNat + A.memChunk ≤ A.sizeMax + 1)
    (hs : heapAllocmem A fuel h n = .ok (h', p)) :
    ∃ chunks', HeapInv A base total h' (if p = 0 then live else (p, n) :: live) chunks' := by
  have hs' : heapAllocmem A (fuel + (chunks.length + 1)) h n = .ok (h', p) := heapAllocLoop_mono _ hs
  have heq := @heapAllocmem_eq h chunks A (fuel + (chunks.length + 1)) n hi.linked hi.nodup (by omega)
  rw [hs', A.round_eq hn] at heq
  have hpos := blockSize_pos n.toNat A.memChunk_pos
  have hg := dvd_blockSize A.memChunk n.toNat
  cases hr : allocChunks (blockSize A.memChunk n.toNat) chunks with
  | none =>
    rw [hr] at heq
    cases heq
    exact ⟨chunks, hi⟩
  | some r =>
    obtain ⟨q, l⟩ := r
    rw [hr] at heq
    obtain ⟨h'', hok, hl, -⟩ := heq
    cases hok
    obtain ⟨x, r, hperm, hcase⟩ := allocChunks_perm hr
    have hx : x.1 ≠ 0 := hi.linked.ne_zero x (hperm.mem_iff.mpr mem_cons_self)
    have hp : p ≠ 0 := by omega
    rw [if_neg hp]
    refine ⟨l, hl, allocChunks_gap hr hi.gap, ?_, forall_mem_cons.mpr ⟨hn, hi.fits⟩, ?_⟩
    · intro y hy
      obtain ⟨z, hz, -, hsz | hsz⟩ := mem_allocChunks hr hy
      · exact hsz ▸ hi.dvd z hz
      · exact hsz ▸ Nat.dvd_sub (hi.dvd z hz) hg
    · have hpart := hi.part.perm (hperm.append_right _)
      rcases hcase with ⟨hsz, rfl, hl'⟩ | ⟨hsz, rfl, hl'⟩
      · refine hpart.perm ?_
        rw [show x = A.block (x.1, n) from Prod.ext rfl hsz]
        exact ((hl'.append_right _).symm.cons _).trans perm_middle.symm
      · have hsplit := hpart.split hpos hsz
        refine hsplit.perm ?_
        have hmove : ((x.1, x.2 - blockSize A.memChunk n.toNat) :: (r ++ live.map A.block)).Perm
            (l ++ live.map A.block) := (hl'.symm.append_right _)
        exact ((List.Perm.swap _ _ _).trans (hmove.cons _)).trans perm_middle.symm

/-- Freeing a live block fails no assertion. -/
theorem free_ok (hbase : 0 < base) {b : ℕ × A.Size} (hb : b ∈ live) {fuel : ℕ} (hf : chunks.length < fuel) :
    ∃ h', heapFreemem A fuel h b.1 b.2 = .ok h' ∧ Linked h' h'.freeList (freeChunks b.1 (A.block b).2 chunks) := by
  have hmem := hi.mem_live hb
  obtain ⟨h', hok, hl, -⟩ := heapFreeRounded_eq hi.linked hf hi.gap (fun c hc => (hi.mem_chunk hc).2.2)
    (Nat.lt_of_lt_of_le hbase hmem.1) hmem.2.2 fun c hc => hi.apart hc hb
  refine ⟨h', ?_, hl⟩
  rw [heapFreemem, A.round_eq (hi.fits b hb)]
  exact hok

/-- **Freeing** keeps the invariant, without the block. -/
theorem free (hbase : 0 < base) {b : ℕ × A.Size} {fuel : ℕ} (hb : b ∈ live)
    (hs : heapFreemem A fuel h b.1 b.2 = .ok h') :
    HeapInv A base total h' (live.erase b) (freeChunks b.1 (A.block b).2 chunks) := by
  have hs' : heapFreemem A (fuel + (chunks.length + 1)) h b.1 b.2 = .ok h' := heapFreeRounded_mono _ hs
  obtain ⟨h'', hok, hl⟩ := hi.free_ok hbase hb (show chunks.length < fuel + (chunks.length + 1) by omega)
  rw [hs'] at hok
  cases hok
  refine ⟨hl, ?_, ?_, fun b' hb' => hi.fits b' (mem_of_mem_erase hb'), ?_⟩
  · exact freeChunks_gap (hi.mem_live hb).2.2 hi.gap (fun c hc => (hi.mem_chunk hc).2.2) fun c hc => hi.apart hc hb
  · exact freeChunks_dvd (dvd_blockSize _ _) hi.dvd
  · have hperm : (live.map A.block).Perm (A.block b :: (live.erase b).map A.block) :=
      (perm_cons_erase hb).map A.block
    exact freeChunks_partition (hi.part.perm ((hperm.append_left chunks).trans perm_middle))

/-- What the owners write into the live blocks does not touch the free chunks. -/
theorem write (hfree : h'.freeList = h.freeList)
    (hs : ∀ a, (∀ b ∈ live, ¬ (b.1 ≤ a ∧ a < b.1 + (A.block b).2)) → SameHeader h h' a) :
    HeapInv A base total h' live chunks := by
  refine ⟨?_, hi.gap, hi.dvd, hi.fits, hi.part⟩
  rw [hfree]
  refine hi.linked.congr fun c hc => hs c.1 ?_
  intro b hb hin
  have hpos := (hi.mem_chunk hc).2.2
  rcases hi.apart hc hb with hap | hap
  · simp only [HeapArch.block] at hap
    omega
  · simp only [HeapArch.block] at hap hin
    omega

end

end HeapInv

/-- **Every run** keeps the invariant. -/
theorem HeapRun.inv {A : HeapArch} {base total : ℕ} {h : Heap} {live : List (ℕ × A.Size)} (hbase : 0 < base)
    (htotal : 0 < total) (hdvd : A.memChunk ∣ total) (run : HeapRun A base total h live) :
    ∃ chunks, HeapInv A base total h live chunks := by
  induction run with
  | init hs => exact ⟨_, HeapInv.init hbase htotal hdvd hs⟩
  | alloc _ hn hs ih =>
    obtain ⟨chunks, hi⟩ := ih
    exact hi.alloc hn hs
  | free _ hb hs ih =>
    obtain ⟨chunks, hi⟩ := ih
    exact ⟨_, hi.free hbase hb hs⟩
  | write _ hfree hs ih =>
    obtain ⟨chunks, hi⟩ := ih
    exact ⟨chunks, hi.write hfree hs⟩

/-- **The heap never loses, overlaps or fragments memory.** In every state of every run the free list is a list of
chunks, strictly sorted by address and without neighbours, that lie in the buffer and whose sizes are positive multiples
of the granularity; the chunks and the live blocks are a partition of the buffer. An allocation returns, and it returns
`NULL` exactly when no chunk is large enough; freeing a live block returns, without a failing assertion; the free space
is the buffer without the live blocks; and without live blocks the heap is the initial chunk. -/
theorem heap_partition {A : HeapArch} {base total : ℕ} {h : Heap} {live : List (ℕ × A.Size)} (hbase : 0 < base)
    (htotal : 0 < total) (hdvd : A.memChunk ∣ total) (run : HeapRun A base total h live) :
    ∃ chunks, Linked h h.freeList chunks ∧
      chunks.Pairwise (fun x y => x.1 < y.1 ∧ x.1 + x.2 ≠ y.1) ∧
      (∀ c ∈ chunks, base ≤ c.1 ∧ c.1 + c.2 ≤ base + total ∧ 0 < c.2 ∧ A.memChunk ∣ c.2) ∧
      Partition base (base + total) (chunks ++ live.map A.block) ∧
      (∀ fuel, chunks.length < fuel →
        (∀ n : A.Size, n.toNat + A.memChunk ≤ A.sizeMax + 1 → ∃ h' p, heapAllocmem A fuel h n = .ok (h', p) ∧
          (p = 0 ↔ ∀ c ∈ chunks, c.2 < blockSize A.memChunk n.toNat)) ∧
        (∀ b ∈ live, ∃ h', heapFreemem A fuel h b.1 b.2 = .ok h') ∧
        heapFreeSpace fuel h = .ok (total - lengths (live.map A.block))) ∧
      (live = [] → chunks = [(base, total)]) := by
  obtain ⟨chunks, hi⟩ := run.inv hbase htotal hdvd
  refine ⟨chunks, hi.linked, ?_, ?_, hi.part, fun fuel hf => ⟨?_, ?_, ?_⟩, ?_⟩
  · refine hi.gap.imp ?_
    intro x y hxy
    have hxy' : x.1 + x.2 < y.1 := hxy
    omega
  · intro c hc
    have hmem := hi.mem_chunk hc
    exact ⟨hmem.1, hmem.2.1, hmem.2.2, hi.dvd c hc⟩
  · intro n hn
    have heq := @heapAllocmem_eq h chunks A fuel n hi.linked hi.nodup hf
    rw [A.round_eq hn] at heq
    rw [← allocChunks_eq_none]
    cases hr : allocChunks (blockSize A.memChunk n.toNat) chunks with
    | none =>
      rw [hr] at heq
      exact ⟨h, 0, heq, by simp⟩
    | some r =>
      rw [hr] at heq
      obtain ⟨h', hok, -⟩ := heq
      obtain ⟨x, r', hperm, hcase⟩ := allocChunks_perm hr
      have hx : x.1 ≠ 0 := hi.linked.ne_zero x (hperm.mem_iff.mpr mem_cons_self)
      exact ⟨h', r.1, hok, by simp; omega⟩
  · intro b hb
    obtain ⟨h', hok, -⟩ := hi.free_ok hbase hb hf
    exact ⟨h', hok⟩
  · have hsum := hi.part.lengths
    rw [lengths_append] at hsum
    rw [heapFreeSpace_eq hi.linked hf]
    congr 1
    omega
  · rintro rfl
    have hone := Partition.eq_singleton (by simpa using hi.part) (by omega) hi.gap
    simpa using hone

/-- A machine of 32 bits: `sizeof(MemChunk)` is 8. -/
def arch32 : HeapArch :=
  ⟨32, 3, 4, by decide⟩

/-- A buffer of 32 bytes at address 8. -/
def freshHeap : Heap :=
  { freeList := 8, next := Function.update (fun _ => 0) 8 0, size := Function.update (fun _ => 0) 8 32 }

/-- The buffer after two allocations, of which the first is freed again: two chunks, and a block between them. -/
def usedHeap : Heap :=
  ((((freshHeap.setSize 8 24).setSize 8 8).setNext (some 32) 0).setSize 32 8).setNext (some 8) 32

theorem usedHeap_run : HeapRun arch32 8 32 usedHeap [(16, 9)] := by
  have hinit : HeapRun arch32 8 32 freshHeap [] :=
    .init (show heapInit arch32 ⟨0, fun _ => 0, fun _ => 0⟩ 8 32 = _ from rfl)
  have hone : heapAllocmem arch32 1 freshHeap (1 : BitVec 32) = .ok (freshHeap.setSize 8 24, 32) := rfl
  have htwo : heapAllocmem arch32 1 (freshHeap.setSize 8 24) (9 : BitVec 32) =
      .ok ((freshHeap.setSize 8 24).setSize 8 8, 16) := rfl
  exact ((hinit.alloc (by decide) hone).alloc (by decide) htwo).free (b := (32, (1 : BitVec 32))) (by decide)
    (show heapFreemem arch32 1 _ _ _ = _ from rfl)

theorem heap_partition_usedHeap :
    ∃ chunks, Linked usedHeap usedHeap.freeList chunks ∧ Partition 8 40 (chunks ++ [(16, 16)]) := by
  obtain ⟨chunks, hl, -, -, hp, -⟩ := heap_partition (by decide) (by decide) (by decide) usedHeap_run
  exact ⟨chunks, hl, hp⟩

/-! ## The size of a block -/

theorem le_blockSize {g : ℕ} (n : ℕ) (hg : 0 < g) : n ≤ blockSize g n := by
  unfold blockSize
  split
  · omega
  · have hdiv := Nat.div_add_mod' (n + (g - 1)) g
    have hmod := Nat.mod_lt (n + (g - 1)) hg
    omega

/-- The headers determine the chunks. -/
theorem Linked.unique {h : Heap} {p : ℕ} {l l' : List (ℕ × ℕ)} (hl : Linked h p l) (hl' : Linked h p l') : l = l' := by
  induction l generalizing p l' with
  | nil =>
    cases l' with
    | nil => rfl
    | cons y l' => exact absurd (hl'.1.symm.trans hl) hl'.2.1
  | cons x l ih =>
    cases l' with
    | nil => exact absurd (hl.1.symm.trans hl') hl.2.1
    | cons y l' =>
      obtain ⟨hx, -, hxs, hxl⟩ := hl
      obtain ⟨hy, -, hys, hyl⟩ := hl'
      have hfst : x.1 = y.1 := hx.symm.trans hy
      rw [← hfst] at hys hyl
      rw [ih hxl hyl, Prod.ext hfst (hxs.symm.trans hys)]

theorem heapMalloc_eq_ok {A : HeapArch} {fuel p : ℕ} {h h' : Heap} {n : A.Size}
    (hs : heapMalloc A fuel h n = .ok (h', p))
    (hp : p ≠ 0) : ∃ h₁ mem, heapAllocmem A fuel h (n + BitVec.ofNat A.bits A.sizeofSize) = .ok (h₁, mem) ∧ mem ≠ 0 ∧
      h' = h₁.setNext (some mem) (n + BitVec.ofNat A.bits A.sizeofSize).toNat ∧ p = mem + A.sizeofSize := by
  simp only [heapMalloc] at hs
  cases halloc : heapAllocmem A fuel h (n + BitVec.ofNat A.bits A.sizeofSize) with
  | error e =>
    rw [halloc] at hs
    cases hs
  | ok r =>
    rw [halloc] at hs
    simp only [Except.map, Except.ok.injEq] at hs
    by_cases hmem : r.2 = 0
    · rw [if_pos hmem] at hs
      cases hs
      exact absurd hmem hp
    · rw [if_neg hmem] at hs
      cases hs
      exact ⟨r.1, r.2, rfl, hmem, rfl, rfl⟩

/-- The `n` bytes from `p` lie in the buffer, outside the free chunks and outside the blocks of `live`. -/
structure HeapOwns (A : HeapArch) (base total : ℕ) (h : Heap) (live : List (ℕ × A.Size)) (p n : ℕ) : Prop where
  start : base ≤ p
  fits : p + n ≤ base + total
  free : ∀ chunks, Linked h h.freeList chunks → ∀ c ∈ chunks, Apart c (p, n)
  live : ∀ b ∈ live, Apart (A.block b) (p, n)

section
variable {A : HeapArch} {base total : ℕ} {h h' : Heap} {live : List (ℕ × A.Size)} {chunks : List (ℕ × ℕ)}

theorem Apart.sub {x : ℕ × ℕ} {p m q n : ℕ} (hx : Apart x (p, m)) (hp : p ≤ q) (hm : q + n ≤ p + m) :
    Apart x (q, n) := by
  simp only [Apart] at hx ⊢
  omega

/-- No one owns more than the buffer. -/
theorem HeapOwns.le_total {p n : ℕ} (ho : HeapOwns A base total h live p n) : n ≤ total := by
  have hstart := ho.start
  have hfits := ho.fits
  omega

/-- What lies inside a live block is owned. -/
theorem HeapInv.owns {b : ℕ × A.Size} (hi : HeapInv A base total h (b :: live) chunks) {q n : ℕ} (hq : b.1 ≤ q)
    (hn : q + n ≤ b.1 + (A.block b).2) : HeapOwns A base total h live q n where
  start := Nat.le_trans (hi.mem_live mem_cons_self).1 hq
  fits := Nat.le_trans hn (hi.mem_live mem_cons_self).2.1
  free := by
    intro chunks' hl c hc
    rw [hl.unique hi.linked] at hc
    exact (hi.apart hc mem_cons_self).sub hq hn
  live := by
    intro b' hb'
    have hpair := pairwise_cons.mp (pairwise_append.mp hi.part.apart).2.1
    exact (hpair.1 _ (mem_map_of_mem hb')).symm.sub hq hn

/-- **Every allocation is as large as asked** exactly when the rounding of the size (for `heap_malloc` with its header)
does not wrap, in every state of every run of a heap that is smaller than the sizes that wrap. -/
theorem heap_alloc_owns (hbase : 0 < base) (htotal : 0 < total) (hdvd : A.memChunk ∣ total)
    (run : HeapRun A base total h live) (fuel : ℕ) (n : A.Size) (h' : Heap) (p : ℕ) (hp : p ≠ 0) :
    (heapAllocmem A fuel h n = .ok (h', p) →
      (n.toNat + A.memChunk ≤ A.sizeMax + 1 → HeapOwns A base total h' live p n.toNat) ∧
      (total + A.memChunk ≤ A.sizeMax + 1 → HeapOwns A base total h' live p n.toNat →
        n.toNat + A.memChunk ≤ A.sizeMax + 1)) ∧
    (heapMalloc A fuel h n = .ok (h', p) →
      (n.toNat + A.sizeofSize + A.memChunk ≤ A.sizeMax + 1 → HeapOwns A base total h' live p n.toNat) ∧
      (total + A.sizeofSize + A.memChunk ≤ A.sizeMax + 1 → HeapOwns A base total h' live p n.toNat →
        n.toNat + A.sizeofSize + A.memChunk ≤ A.sizeMax + 1)) := by
  obtain ⟨chunks, hi⟩ := run.inv hbase htotal hdvd
  refine ⟨fun hs => ⟨fun hn => ?_, fun ht ho => ?_⟩, fun hs => ⟨fun hn => ?_, fun ht ho => ?_⟩⟩
  · obtain ⟨chunks', hi'⟩ := hi.alloc hn hs
    rw [if_neg hp] at hi'
    exact hi'.owns (Nat.le_refl p) (Nat.add_le_add_left (le_blockSize n.toNat A.memChunk_pos) p)
  · have hle := ho.le_total
    omega
  · have hsize : (n + BitVec.ofNat A.bits A.sizeofSize).toNat = n.toNat + A.sizeofSize := by
      have hmax : A.sizeMax < 2 ^ A.bits := BitVec.isLt _
      have hpos := A.memChunk_pos
      rw [BitVec.toNat_add, BitVec.toNat_ofNat, Nat.add_mod_mod]
      exact Nat.mod_eq_of_lt (by omega)
    obtain ⟨h₁, mem, halloc, hmem, rfl, rfl⟩ := heapMalloc_eq_ok hs hp
    obtain ⟨chunks', hi'⟩ := hi.alloc (by rw [hsize]; exact hn) halloc
    rw [if_neg hmem] at hi'
    have hpos := (hi'.mem_live mem_cons_self).2.2
    -- the header is written into the new block
    have hw : HeapInv A base total (h₁.setNext (some mem) (n + BitVec.ofNat A.bits A.sizeofSize).toNat)
        ((mem, n + BitVec.ofNat A.bits A.sizeofSize) :: live) chunks' := by
      refine hi'.write rfl fun a ha => ?_
      have hne : a ≠ mem := by
        rintro rfl
        exact ha _ mem_cons_self ⟨Nat.le_refl a, Nat.lt_add_of_pos_right hpos⟩
      exact ⟨Function.update_of_ne hne _ _, rfl⟩
    refine hw.owns (Nat.le_add_right _ _) ?_
    have hlarge := le_blockSize (n.toNat + A.sizeofSize) A.memChunk_pos
    simp only [HeapArch.block, hsize]
    omega
  · have hle := ho.le_total
    omega

end

/-- The two calls on the heap with a live block, each for a size that it can give. -/
theorem heap_alloc_owns_usedHeap : HeapOwns arch32 8 32 (usedHeap.setNext none 32) [(16, 9)] 8 8 ∧
    HeapOwns arch32 8 32 ((usedHeap.setNext none 32).setNext (some 8) 8) [(16, 9)] 12 4 :=
  ⟨((heap_alloc_owns (by decide) (by decide) (by decide) usedHeap_run 1 (8 : BitVec 32) _ 8 (by decide)).1 rfl).1
      (by decide),
    ((heap_alloc_owns (by decide) (by decide) (by decide) usedHeap_run 1 (4 : BitVec 32) _ 12 (by decide)).2 rfl).1
      (by decide)⟩

/-- Nearly `SIZE_MAX` bytes asked of a heap of 32: the size wraps to zero, and eight bytes are returned. -/
theorem heap_alloc_wraps : HeapRun arch32 8 32 usedHeap [(16, 9)] ∧
    heapAllocmem arch32 1 usedHeap (0xFFFFFFFF : BitVec 32) = .ok (usedHeap.setNext none 32, 8) ∧
    ¬ HeapOwns arch32 8 32 (usedHeap.setNext none 32) [(16, 9)] 8 0xFFFFFFFF ∧
    heapMalloc arch32 1 usedHeap (0xFFFFFFFC : BitVec 32) = .ok ((usedHeap.setNext none 32).setNext (some 8) 0, 12) ∧
    ¬ HeapOwns arch32 8 32 ((usedHeap.setNext none 32).setNext (some 8) 0) [(16, 9)] 12 0xFFFFFFFC :=
  ⟨usedHeap_run, rfl, fun h => absurd h.fits (by decide), rfl, fun h => absurd h.fits (by decide)⟩

end Bertos
