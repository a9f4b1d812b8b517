import Bertos.Lib.Partition
import Mathlib.Logic.Function.Basic

/-!
# The heap: a free list inside the memory it manages

`struct/heap.c`: `heap_init`, `heap_allocmem`, `heap_malloc`, `heap_freemem` and `heap_freeSpace`. The memory is the
two fields of a header (`MemChunk`: `next`, `size`) at every address, so that the functions follow pointers as the code
does. Address `0` is `NULL`. A buffer and the address after its end lie in the address space, hence pointers are
numbers whose sums do not wrap; a size given by the caller is a `size_t`, and rounding it up may wrap.

The loops take fuel, and a failing assertion is an error (`HeapFault`). `Linked` relates the headers to the list of
chunks, on which `allocChunks` and `freeChunks` say what the functions do (`heapAllocmem_eq`, `heapFreeRounded_eq`).
-/

namespace Bertos

open List Function

/-- The machine: the width of `size_t`, `sizeof(MemChunk)` as a power of two, and `alignof(heap_buf_t)`. -/
structure HeapArch where
  bits : ℕ
  chunkBits : ℕ
  align : ℕ
  lt : chunkBits < bits

/-- `sizeof(MemChunk)`. -/
def HeapArch.memChunk (A : HeapArch) : ℕ :=
  1 <<< A.chunkBits

/-- `size_t`. -/
abbrev HeapArch.Size (A : HeapArch) :=
  BitVec A.bits

def HeapArch.sizeMax (A : HeapArch) : ℕ :=
  (BitVec.allOnes A.bits).toNat

/-- `sizeof(size_t)`. -/
def HeapArch.sizeofSize (A : HeapArch) : ℕ :=
  A.bits / 8

/-- The head of the free list, and the headers that lie in the memory. -/
structure Heap where
  freeList : ℕ
  next : ℕ → ℕ
  size : ℕ → ℕ

/-- Why a function of the heap does not return. -/
inductive HeapFault
  | assertion
  /-- The loop needs more turns than it was given. -/
  | fuel
  deriving DecidableEq

/-! ## `struct/heap.c` -/

def roundUp2 {w : ℕ} (x pad : BitVec w) : BitVec w :=
  (x + (pad - 1)) &&& ~~~(pad - 1)

/-- The size that a request is rounded to; a request of no bytes is one for a chunk header. -/
def HeapArch.round (A : HeapArch) (size : A.Size) : ℕ :=
  let size := roundUp2 size (BitVec.ofNat A.bits A.memChunk)
  if size = 0 then A.memChunk else size.toNat

namespace Heap

/-- `prev->next = p`, where `none` is the fake header at `&h->FreeList`. -/
def setNext (h : Heap) (prev : Option ℕ) (p : ℕ) : Heap :=
  match prev with
  | none => { h with freeList := p }
  | some a => { h with next := Function.update h.next a p }

/-- `prev->next`, where `none` is the fake header at `&h->FreeList`. -/
def link (h : Heap) : Option ℕ → ℕ
  | none => h.freeList
  | some a => h.next a

/-- `chunk->size = n`. -/
def setSize (h : Heap) (a n : ℕ) : Heap :=
  { h with size := Function.update h.size a n }

section
variable (h : Heap) (prev : Option ℕ) (a p n : ℕ)

@[simp] theorem setNext_size : (h.setNext prev p).size = h.size := by
  cases prev <;> rfl

@[simp] theorem setNext_link_self : (h.setNext prev p).link prev = p := by
  cases prev <;> simp [setNext, link]

@[simp] theorem setNext_none_next : (h.setNext none p).next = h.next := rfl

@[simp] theorem setNext_some_next : (h.setNext (some a) p).next = Function.update h.next a p := rfl

@[simp] theorem setSize_next : (h.setSize a n).next = h.next := rfl

@[simp] theorem setSize_size : (h.setSize a n).size = Function.update h.size a n := rfl

@[simp] theorem setSize_link : (h.setSize a n).link prev = h.link prev := by
  cases prev <;> rfl

theorem setNext_next_of_ne (hne : prev ≠ some a) : (h.setNext prev p).next a = h.next a := by
  cases prev with
  | none => rfl
  | some b => exact update_of_ne (fun e => hne (congrArg some e.symm)) _ _

end

end Heap

def heapInit (A : HeapArch) (h : Heap) (memory size : ℕ) : Except HeapFault Heap :=
  if memory % A.align = 0 then .ok (({ h with freeList := memory }.setNext (some memory) 0).setSize memory size)
  else .error .assertion

/-- The loop of `heap_allocmem`. -/
def heapAllocLoop (size : ℕ) : ℕ → Option ℕ → ℕ → Heap → Except HeapFault (Heap × ℕ)
  | 0, _, _, _ => .error .fuel
  | fuel + 1, prev, chunk, h =>
    if chunk = 0 then .ok (h, 0)
    else if size ≤ h.size chunk then
      if h.size chunk = size then .ok (h.setNext prev (h.next chunk), chunk)
      else .ok (h.setSize chunk (h.size chunk - size), chunk + (h.size chunk - size))
    else heapAllocLoop size fuel (some chunk) (h.next chunk) h

def heapAllocmem (A : HeapArch) (fuel : ℕ) (h : Heap) (size : A.Size) : Except HeapFault (Heap × ℕ) :=
  heapAllocLoop (A.round size) fuel none h.freeList h

/-- `heap_malloc`: the size is kept in the first word of the block, where a free chunk has its link. -/
def heapMalloc (A : HeapArch) (fuel : ℕ) (h : Heap) (size : A.Size) : Except HeapFault (Heap × ℕ) :=
  let size := size + BitVec.ofNat A.bits A.sizeofSize
  (heapAllocmem A fuel h size).map fun (h, mem) =>
    if mem = 0 then (h, mem) else (h.setNext (some mem) size.toNat, mem + A.sizeofSize)

/-- The loop of `heap_freemem` that looks for the insertion point. -/
def heapFreeWalk (mem : ℕ) (h : Heap) : ℕ → ℕ → Except HeapFault ℕ
  | 0, _ => .error .fuel
  | fuel + 1, prev =>
    if h.next prev < mem ∧ h.next prev ≠ 0 then heapFreeWalk mem h fuel (h.next prev) else .ok prev

/-- The end of `heap_freemem`: merge with the next chunk. -/
def heapMergeNext (h : Heap) (prev : ℕ) : Except HeapFault Heap :=
  if prev + h.size prev = h.next prev then
    let h := h.setSize prev (h.size prev + h.size (h.next prev))
    let h := h.setNext (some prev) (h.next (h.next prev))
    if prev + h.size prev = h.next prev then .error .assertion else .ok h
  else .ok h

/-- `heap_freemem` after a chunk of the free list. -/
def heapFreeAfter (h : Heap) (mem size prev : ℕ) : Except HeapFault Heap :=
  if mem < prev + h.size prev then .error .assertion
  else if prev + h.size prev = mem then heapMergeNext (h.setSize prev (h.size prev + size)) prev
  else heapMergeNext (((h.setNext (some mem) (h.next prev)).setSize mem size).setNext (some prev) mem) mem

/-- `heap_freemem` of a block of the rounded size. -/
def heapFreeRounded (fuel : ℕ) (h : Heap) (mem size : ℕ) : Except HeapFault Heap :=
  if mem = 0 ∨ mem = h.freeList then .error .assertion
  else if mem < h.freeList ∨ h.freeList = 0 then
    heapMergeNext (((h.setNext (some mem) h.freeList).setSize mem size).setNext none mem) mem
  else
    match heapFreeWalk mem h fuel h.freeList with
    | .error e => .error e
    | .ok prev => heapFreeAfter h mem size prev

def heapFreemem (A : HeapArch) (fuel : ℕ) (h : Heap) (mem : ℕ) (size : A.Size) : Except HeapFault Heap :=
  heapFreeRounded fuel h mem (A.round size)

/-- The loop of `heap_freeSpace`. -/
def heapFreeSpaceLoop (h : Heap) : ℕ → ℕ → ℕ → Except HeapFault ℕ
  | 0, _, _ => .error .fuel
  | fuel + 1, chunk, freeMem =>
    if chunk = 0 then .ok freeMem else heapFreeSpaceLoop h fuel (h.next chunk) (freeMem + h.size chunk)

def heapFreeSpace (fuel : ℕ) (h : Heap) : Except HeapFault ℕ :=
  heapFreeSpaceLoop h fuel h.freeList 0

/-! ## Rounding -/

/-- A request rounded up to a positive multiple of the granularity. -/
def blockSize (g n : ℕ) : ℕ :=
  if n = 0 then g else (n + (g - 1)) / g * g

namespace HeapArch

variable (A : HeapArch)

theorem memChunk_pos : 0 < A.memChunk := by
  rw [memChunk, Nat.one_shiftLeft]
  exact Nat.two_pow_pos _

theorem toNat_memChunk_sub_one : (BitVec.ofNat A.bits A.memChunk - 1).toNat = A.memChunk - 1 := by
  have hlt := Nat.pow_lt_pow_right (show 1 < 2 by decide) A.lt
  have hpos := A.memChunk_pos
  rw [← Nat.one_shiftLeft A.chunkBits] at hlt
  have hone : (1 : A.Size).toNat = 1 := BitVec.toNat_one (Nat.lt_of_le_of_lt (Nat.zero_le _) A.lt)
  have hc : (BitVec.ofNat A.bits A.memChunk).toNat = A.memChunk := Nat.mod_eq_of_lt hlt
  rw [BitVec.toNat_sub_of_le (by rw [BitVec.le_def, hone, hc]; exact hpos), hone, hc]

/-- The mask of `ROUND_UP2` takes the remainder away. -/
theorem toNat_and_mask (y : A.Size) :
    (y &&& ~~~(BitVec.ofNat A.bits A.memChunk - 1)).toNat = y.toNat / A.memChunk * A.memChunk := by
  have hlt : 2 ^ A.chunkBits - 1 < 2 ^ A.bits := by
    have := Nat.pow_lt_pow_right (show 1 < 2 by decide) A.lt
    have := Nat.two_pow_pos A.chunkBits
    omega
  rw [BitVec.toNat_and, BitVec.toNat_not, A.toNat_memChunk_sub_one, memChunk, Nat.one_shiftLeft, Nat.sub_right_comm,
    ← Nat.sub_add_eq]
  apply Nat.eq_of_testBit_eq
  intro i
  rw [Nat.testBit_and, Nat.testBit_two_pow_sub_succ hlt, Nat.testBit_mul_two_pow,
    Nat.testBit_div_two_pow]
  by_cases hi : A.chunkBits ≤ i
  · have hbit : i < A.bits ∨ y.toNat.testBit i = false := by
      rcases Nat.lt_or_ge i A.bits with hw | hw
      · exact Or.inl hw
      · exact Or.inr (Nat.testBit_lt_two_pow (Nat.lt_of_lt_of_le y.isLt (Nat.pow_le_pow_right (by decide) hw)))
    rcases hbit with hbit | hbit <;> simp [hi, hbit, Nat.sub_add_cancel hi, Nat.not_lt.mpr hi]
  · simp [hi, Nat.not_le.mp hi]

/-- **The rounding does not wrap** for the sizes up to `SIZE_MAX - sizeof(MemChunk) + 1`. -/
theorem round_eq {size : A.Size} (h : size.toNat + A.memChunk ≤ A.sizeMax + 1) :
    A.round size = blockSize A.memChunk size.toNat := by
  have hpos := A.memChunk_pos
  have hsum : (size + (BitVec.ofNat A.bits A.memChunk - 1)).toNat = size.toNat + (A.memChunk - 1) := by
    rw [BitVec.toNat_add, A.toNat_memChunk_sub_one]
    apply Nat.mod_eq_of_lt
    have hlt : A.sizeMax < 2 ^ A.bits := BitVec.isLt _
    omega
  have hround : (roundUp2 size (BitVec.ofNat A.bits A.memChunk)).toNat =
      (size.toNat + (A.memChunk - 1)) / A.memChunk * A.memChunk := by
    rw [roundUp2, A.toNat_and_mask, hsum]
  have hzero : roundUp2 size (BitVec.ofNat A.bits A.memChunk) = 0 ↔ size.toNat = 0 := by
    rw [← BitVec.toNat_inj, hround, show (0 : A.Size).toNat = 0 from Nat.zero_mod _, Nat.mul_eq_zero,
      Nat.div_eq_zero_iff]
    omega
  unfold round blockSize
  simp only [hzero, hround]

end HeapArch

/-! ## The list of free chunks -/

/-- The headers from address `p` on are those of the chunks `l`: pairs of address and size. -/
def Linked (h : Heap) : ℕ → List (ℕ × ℕ) → Prop
  | p, [] => p = 0
  | p, x :: l => p = x.1 ∧ x.1 ≠ 0 ∧ h.size x.1 = x.2 ∧ Linked h (h.next x.1) l

/-- `heap_allocmem` on the list of chunks: the first one that is large enough is taken, or cut at its end. -/
def allocChunks (size : ℕ) : List (ℕ × ℕ) → Option (ℕ × List (ℕ × ℕ))
  | [] => none
  | x :: l =>
    if size ≤ x.2 then
      if x.2 = size then some (x.1, l) else some (x.1 + (x.2 - size), (x.1, x.2 - size) :: l)
    else (allocChunks size l).map fun r => (r.1, x :: r.2)

/-- A chunk is put before the chunks `l`, and merged with the first of them when that is its neighbour. -/
def mergeNext (x : ℕ × ℕ) : List (ℕ × ℕ) → List (ℕ × ℕ)
  | [] => [x]
  | y :: l => if x.1 + x.2 = y.1 then (x.1, x.2 + y.2) :: l else x :: y :: l

/-- `heap_freemem` on the list of chunks: insertion by address, merging on both sides. -/
def freeChunks (mem size : ℕ) : List (ℕ × ℕ) → List (ℕ × ℕ)
  | [] => [(mem, size)]
  | x :: l =>
    if mem < x.1 then mergeNext (mem, size) (x :: l)
    else if x.1 + x.2 = mem then mergeNext (x.1, x.2 + size) l
    else x :: freeChunks mem size l

/-- `x` lies before `y`, and memory that is not free lies between them. -/
def Gap (x y : ℕ × ℕ) : Prop :=
  x.1 + x.2 < y.1

theorem forall_le_of_gap {a : ℕ} {x : ℕ × ℕ} {l : List (ℕ × ℕ)} (hx : ∀ y ∈ l, Gap x y) (h : a ≤ x.1) :
    ∀ y ∈ x :: l, a ≤ y.1 :=
  forall_mem_cons.mpr ⟨h, fun y hy => by have : x.1 + x.2 < y.1 := hx y hy; omega⟩

/-- The headers at these addresses are the same in both memories. -/
def SameHeader (h h' : Heap) (a : ℕ) : Prop :=
  h'.next a = h.next a ∧ h'.size a = h.size a

section
variable {h h' : Heap} {p : ℕ} {l : List (ℕ × ℕ)}

/-- A list depends on the headers of its chunks only. -/
theorem Linked.congr (hl : Linked h p l) (hs : ∀ x ∈ l, SameHeader h h' x.1) : Linked h' p l := by
  induction l generalizing p with
  | nil => exact hl
  | cons x l ih =>
    obtain ⟨hp, h0, hsize, hl⟩ := hl
    obtain ⟨hn, hz⟩ := hs x mem_cons_self
    refine ⟨hp, h0, hz.trans hsize, ?_⟩
    rw [hn]
    exact ih hl fun y hy => hs y (mem_cons_of_mem x hy)

/-- The chunks after a prefix may be replaced by others that begin at the same address. -/
theorem Linked.replace {x : ℕ × ℕ} {pre post l' : List (ℕ × ℕ)} (hl : Linked h p (pre ++ x :: post))
    (hs : ∀ y ∈ pre, SameHeader h h' y.1) (hl' : Linked h' x.1 l') : Linked h' p (pre ++ l') := by
  induction pre generalizing p with
  | nil =>
    rw [show p = x.1 from hl.1]
    exact hl'
  | cons y pre ih =>
    obtain ⟨hp, h0, hsize, hl⟩ := hl
    obtain ⟨hn, hz⟩ := hs y mem_cons_self
    refine ⟨hp, h0, hz.trans hsize, ?_⟩
    rw [hn]
    exact ih hl fun z hz => hs z (mem_cons_of_mem y hz)

/-- The rest of a list is a list. -/
theorem Linked.drop {x : ℕ × ℕ} {pre post : List (ℕ × ℕ)} (hl : Linked h p (pre ++ x :: post)) :
    Linked h x.1 (x :: post) := by
  induction pre generalizing p with
  | nil => exact ⟨rfl, hl.2⟩
  | cons y pre ih => exact ih hl.2.2.2

theorem Linked.ne_zero (hl : Linked h p l) : ∀ x ∈ l, x.1 ≠ 0 := by
  induction l generalizing p with
  | nil => simp
  | cons y l ih => exact forall_mem_cons.mpr ⟨hl.2.1, ih hl.2.2.2⟩

/-! ## `heap_freeSpace` -/

/-- The loop of `heap_freeSpace` adds up the sizes. -/
theorem heapFreeSpaceLoop_eq {fuel : ℕ} (hl : Linked h p l) (hf : l.length < fuel) (acc : ℕ) :
    heapFreeSpaceLoop h fuel p acc = .ok (acc + lengths l) := by
  induction l generalizing p fuel acc with
  | nil =>
    obtain ⟨fuel, rfl⟩ := Nat.exists_eq_add_of_lt hf
    rw [show p = 0 from hl]
    simp [heapFreeSpaceLoop, lengths]
  | cons x l ih =>
    obtain ⟨rfl, h0, hsize, hl⟩ := hl
    obtain ⟨fuel, rfl⟩ : ∃ n, fuel = n + 1 := ⟨fuel - 1, by omega⟩
    rw [heapFreeSpaceLoop, if_neg h0, ih hl (by simpa using hf), hsize, lengths, Nat.add_assoc]

/-- `heap_freeSpace` adds the sizes of the chunks up. -/
theorem heapFreeSpace_eq {fuel : ℕ} (hl : Linked h h.freeList l) (hf : l.length < fuel) :
    heapFreeSpace fuel h = .ok (lengths l) := by
  rw [heapFreeSpace, heapFreeSpaceLoop_eq hl hf, Nat.zero_add]

/-! ## `heap_allocmem` -/

/-- What the loop of `heap_allocmem` does after the link `prev`, on the chunks `l` that follow it. -/
structure AllocFrame (h h' : Heap) (prev : Option ℕ) (l : List (ℕ × ℕ)) : Prop where
  freeList : prev ≠ none → h'.freeList = h.freeList
  next : ∀ a, a ∉ l.map Prod.fst → prev ≠ some a → h'.next a = h.next a
  size : ∀ a, a ∉ l.map Prod.fst → h'.size a = h.size a

/-- The link before the chunks is left alone by what happens after the first of them. -/
theorem AllocFrame.link {prev : Option ℕ} {a : ℕ} (hf : AllocFrame h h' (some a) l) (hne : prev ≠ some a)
    (hout : ∀ b, prev = some b → b ∉ l.map Prod.fst) : h'.link prev = h.link prev := by
  cases prev with
  | none => exact hf.freeList nofun
  | some b => exact hf.next b (hout b rfl) fun e => hne (e.symm)

/-- The loop of `heap_allocmem` finds the first chunk that is large enough. -/
theorem heapAllocLoop_eq {size fuel : ℕ} {prev : Option ℕ} (hl : Linked h p l) (hnd : (l.map Prod.fst).Nodup)
    (hf : l.length < fuel) (hp : h.link prev = p) (hout : ∀ a, prev = some a → a ∉ l.map Prod.fst) :
    match allocChunks size l with
    | none => heapAllocLoop size fuel prev p h = .ok (h, 0)
    | some (q, l') => ∃ h', heapAllocLoop size fuel prev p h = .ok (h', q) ∧ Linked h' (h'.link prev) l' ∧
        AllocFrame h h' prev l := by
  induction l generalizing p fuel prev with
  | nil =>
    obtain ⟨fuel, rfl⟩ : ∃ n, fuel = n + 1 := ⟨fuel - 1, by omega⟩
    rw [show p = 0 from hl]
    rfl
  | cons x l ih =>
    obtain ⟨rfl, h0, hsize, hl⟩ := hl
    obtain ⟨hx, hnd⟩ := nodup_cons.mp hnd
    obtain ⟨fuel, rfl⟩ : ∃ n, fuel = n + 1 := ⟨fuel - 1, by omega⟩
    have hne : ∀ y ∈ l, y.1 ≠ x.1 := fun y hy e => hx (mem_map.mpr ⟨y, hy, e⟩)
    have hprev : ∀ y ∈ x :: l, prev ≠ some y.1 := fun y hy e => hout y.1 e (mem_map_of_mem hy)
    rw [heapAllocLoop, if_neg h0, hsize, allocChunks]
    by_cases hfit : size ≤ x.2
    · rw [if_pos hfit, if_pos hfit]
      by_cases heq : x.2 = size
      · rw [if_pos heq, if_pos heq]
        refine ⟨_, rfl, ?_, ?_⟩
        · rw [Heap.setNext_link_self]
          refine hl.congr fun y hy => ⟨?_, by rw [Heap.setNext_size]⟩
          exact h.setNext_next_of_ne prev y.1 _ (hprev y (mem_cons_of_mem x hy))
        · refine ⟨?_, ?_, ?_⟩
          · intro hne
            cases prev with
            | none => exact absurd rfl hne
            | some b => rfl
          · intro a _ ha
            exact h.setNext_next_of_ne prev a _ ha
          · intro a _
            rw [Heap.setNext_size]
      · rw [if_neg heq, if_neg heq]
        refine ⟨_, rfl, ?_, ?_⟩
        · rw [Heap.setSize_link, hp]
          refine ⟨rfl, h0, by simp, ?_⟩
          exact hl.congr fun y hy => ⟨rfl, by simp [hne y hy]⟩
        · refine ⟨fun _ => rfl, fun _ _ _ => rfl, ?_⟩
          intro a ha
          simp only [map_cons, mem_cons, not_or] at ha
          simp [ha.1]
    · rw [if_neg hfit, if_neg hfit]
      -- The chunk is skipped: it is the link of what follows, and keeps its own size.
      have hstep := ih hl hnd (by simpa using hf) (show h.link (some x.1) = _ from rfl) (by rintro a ⟨⟩; exact hx)
      cases halloc : allocChunks size l with
      | none =>
        rw [halloc] at hstep
        exact hstep
      | some r =>
        rw [halloc] at hstep
        obtain ⟨h', hloop, hl', hframe⟩ := hstep
        have hlink : h'.link prev = x.1 :=
          (hframe.link (hprev x mem_cons_self) fun b hb hm =>
            hout b hb (mem_cons_of_mem _ hm)).trans hp
        refine ⟨h', hloop, ?_, ?_⟩
        · rw [hlink]
          exact ⟨rfl, h0, (hframe.size _ hx).trans hsize, hl'⟩
        · refine ⟨fun _ => hframe.freeList nofun, ?_, ?_⟩
          · intro a ha _
            simp only [map_cons, mem_cons, not_or] at ha
            exact hframe.next a ha.2 fun e => ha.1 (Option.some.inj e).symm
          · intro a ha
            exact hframe.size a fun hm => ha (mem_cons_of_mem _ hm)

/-- **`heap_allocmem` on the list of chunks**: it returns, and leaves the headers elsewhere alone. -/
theorem heapAllocmem_eq (A : HeapArch) {fuel : ℕ} {size : A.Size} (hl : Linked h h.freeList l)
    (hnd : (l.map Prod.fst).Nodup) (hf : l.length < fuel) :
    match allocChunks (A.round size) l with
    | none => heapAllocmem A fuel h size = .ok (h, 0)
    | some (q, l') => ∃ h', heapAllocmem A fuel h size = .ok (h', q) ∧ Linked h' h'.freeList l' ∧
        ∀ a, a ∉ l.map Prod.fst → SameHeader h h' a := by
  have hloop := @heapAllocLoop_eq h h.freeList l (A.round size) fuel none hl hnd hf rfl nofun
  split at hloop
  · exact hloop
  · obtain ⟨h', hok, hl', hframe⟩ := hloop
    exact ⟨h', hok, hl', fun a ha => ⟨hframe.next a ha nofun, hframe.size a ha⟩⟩

/-! ## `heap_freemem` -/

theorem SameHeader.trans {h'' : Heap} {a : ℕ} (h1 : SameHeader h h' a) (h2 : SameHeader h' h'' a) :
    SameHeader h h'' a :=
  ⟨h2.1.trans h1.1, h2.2.trans h1.2⟩

/-- The test for a neighbour merges two chunks. -/
theorem heapMergeNext_eq {x : ℕ × ℕ} (hl : Linked h x.1 (x :: l)) (hpos : 0 < x.2)
    (hx : ∀ y ∈ l, x.1 + x.2 ≤ y.1) (hg : l.Pairwise Gap) :
    ∃ h', heapMergeNext h x.1 = .ok h' ∧ Linked h' x.1 (mergeNext x l) ∧ h'.freeList = h.freeList ∧
      ∀ a, a ≠ x.1 → SameHeader h h' a := by
  obtain ⟨-, h0, hsize, hl⟩ := hl
  cases l with
  | nil =>
    have hnext : h.next x.1 = 0 := hl
    refine ⟨h, ?_, ⟨rfl, h0, hsize, hnext⟩, rfl, fun a _ => ⟨rfl, rfl⟩⟩
    rw [heapMergeNext, if_neg (by omega)]
  | cons y l =>
    obtain ⟨hnext, hy0, hysize, hl⟩ := hl
    by_cases hadj : x.1 + x.2 = y.1
    · have hl' : ∀ z ∈ l, z.1 ≠ x.1 := fun z hz => by
        have := hx z (mem_cons_of_mem y hz)
        omega
      -- After the merge the next chunk is not adjacent: chunks of the free list never are.
      have hlast : x.1 + (x.2 + y.2) ≠ h.next y.1 := by
        cases l with
        | nil =>
          rw [show h.next y.1 = 0 from hl]
          omega
        | cons z l =>
          have hyz : y.1 + y.2 < z.1 := (pairwise_cons.mp hg).1 z mem_cons_self
          rw [hl.1]
          omega
      refine ⟨(h.setSize x.1 (x.2 + y.2)).setNext (some x.1) (h.next y.1), ?_, ?_, rfl, ?_⟩
      · simp [heapMergeNext, hsize, hnext, hadj, hysize, hlast]
      · rw [mergeNext, if_pos hadj]
        refine ⟨rfl, h0, by simp, ?_⟩
        simp only [Heap.setNext_some_next, update_self]
        exact hl.congr fun z hz => ⟨by simp [hl' z hz], by simp [hl' z hz]⟩
      · intro a ha
        exact ⟨by simp [ha], by simp [ha]⟩
    · refine ⟨h, ?_, ?_, rfl, fun a _ => ⟨rfl, rfl⟩⟩
      · rw [heapMergeNext, hsize, hnext, if_neg hadj]
      · rw [mergeNext, if_neg hadj]
        exact ⟨rfl, h0, hsize, hnext, hy0, hysize, hl⟩

/-- The loop stops at the last chunk before `mem`. -/
theorem heapFreeWalk_eq {mem fuel : ℕ} {x : ℕ × ℕ} (hl : Linked h x.1 (x :: l)) (hx : x.1 < mem)
    (hg : l.Pairwise Gap) (hf : l.length < fuel) :
    ∃ pre y post, x :: l = pre ++ y :: post ∧ heapFreeWalk mem h fuel x.1 = .ok y.1 ∧ y.1 < mem ∧
      ∀ z ∈ post, mem ≤ z.1 := by
  induction l generalizing x fuel with
  | nil =>
    obtain ⟨fuel, rfl⟩ : ∃ n, fuel = n + 1 := ⟨fuel - 1, by omega⟩
    refine ⟨[], x, [], rfl, ?_, hx, nofun⟩
    have hnext : h.next x.1 = 0 := hl.2.2.2
    simp [heapFreeWalk, hnext]
  | cons y l ih =>
    obtain ⟨fuel, rfl⟩ : ∃ n, fuel = n + 1 := ⟨fuel - 1, by omega⟩
    obtain ⟨-, h0, hsize, hl⟩ := hl
    obtain ⟨hy, hg⟩ := pairwise_cons.mp hg
    have hnext : h.next x.1 = y.1 := hl.1
    rw [heapFreeWalk, hnext]
    by_cases hlt : y.1 < mem
    · rw [if_pos ⟨hlt, hl.2.1⟩]
      obtain ⟨pre, z, post, hsplit, hwalk, hz, hpost⟩ := ih (hnext ▸ hl) hlt hg (by simpa using hf)
      exact ⟨x :: pre, z, post, by rw [hsplit]; rfl, hwalk, hz, hpost⟩
    · rw [if_neg fun hc => hlt hc.1]
      exact ⟨[], x, y :: l, rfl, rfl, hx, forall_le_of_gap hy (by omega)⟩

/-- Chunks in front of the block, and apart from it, stay. -/
theorem freeChunks_append {mem size : ℕ} {pre post : List (ℕ × ℕ)} (hpre : ∀ y ∈ pre, y.1 + y.2 < mem) :
    freeChunks mem size (pre ++ post) = pre ++ freeChunks mem size post := by
  induction pre with
  | nil => rfl
  | cons y pre ih =>
    have hy := hpre y mem_cons_self
    rw [cons_append, freeChunks, if_neg (by omega), if_neg (by omega),
      ih fun z hz => hpre z (mem_cons_of_mem y hz)]
    rfl

theorem freeChunks_head {mem size : ℕ} (hl : ∀ y ∈ l, mem < y.1) : freeChunks mem size l = mergeNext (mem, size) l := by
  cases l with
  | nil => rfl
  | cons y l => rw [freeChunks, if_pos (hl y mem_cons_self)]

/-- A block that is freed behind a chunk. -/
theorem heapFreeAfter_eq {mem size : ℕ} {x : ℕ × ℕ} (hl : Linked h x.1 (x :: l)) (hpos : 0 < x.2) (hsz : 0 < size)
    (hx : x.1 + x.2 ≤ mem) (hmem : ∀ y ∈ l, mem + size ≤ y.1) (hg : l.Pairwise Gap) :
    ∃ h', heapFreeAfter h mem size x.1 = .ok h' ∧ Linked h' x.1 (freeChunks mem size (x :: l)) ∧
      h'.freeList = h.freeList ∧ ∀ a, a ≠ x.1 → a ≠ mem → SameHeader h h' a := by
  obtain ⟨-, h0, hsize, hl⟩ := hl
  have hne : ∀ y ∈ l, y.1 ≠ x.1 ∧ y.1 ≠ mem := fun y hy => by
    have := hmem y hy
    omega
  rw [heapFreeAfter, hsize, if_neg (show ¬ mem < x.1 + x.2 by omega), freeChunks, if_neg (show ¬ mem < x.1 by omega)]
  by_cases hadj : x.1 + x.2 = mem
  · rw [if_pos hadj, if_pos hadj]
    obtain ⟨h', hok, hl', hfree, hsame⟩ := heapMergeNext_eq (x := (x.1, x.2 + size))
      (h := h.setSize x.1 (x.2 + size)) (l := l)
      ⟨rfl, h0, by simp, hl.congr fun y hy => ⟨rfl, by simp [(hne y hy).1]⟩⟩ (Nat.add_pos_left hpos size)
      (fun y hy => by have := hmem y hy; omega) hg
    refine ⟨h', hok, hl', hfree, fun a ha _ => ?_⟩
    have hset : SameHeader h (h.setSize x.1 (x.2 + size)) a := ⟨rfl, by simp [ha]⟩
    exact hset.trans (hsame a ha)
  · rw [if_neg hadj, if_neg hadj, freeChunks_head fun y hy => by have := hmem y hy; omega]
    have hxm : x.1 ≠ mem := by omega
    obtain ⟨h', hok, hl', hfree, hsame⟩ := heapMergeNext_eq (x := (mem, size)) (l := l)
      (h := ((h.setNext (some mem) (h.next x.1)).setSize mem size).setNext (some x.1) mem)
      ⟨rfl, by omega, by simp, by
        simp only [Heap.setNext_some_next, Heap.setSize_next, update_of_ne (Ne.symm hxm), update_self]
        exact hl.congr fun y hy => ⟨by simp [hne y hy], by simp [hne y hy]⟩⟩ hsz hmem hg
    obtain ⟨hxn, hxs⟩ := hsame x.1 hxm
    refine ⟨h', hok, ⟨rfl, h0, ?_, ?_⟩, hfree, fun a ha ham => ?_⟩
    · rw [hxs]
      simp [hxm, hsize]
    · rw [hxn]
      simpa using hl'
    · exact SameHeader.trans ⟨by simp [ha, ham], by simp [ham]⟩ (hsame a ham)

/-- **`heap_freemem` on the list of chunks**, for a block that overlaps none of them: it returns, no assertion fails,
and the headers elsewhere are left alone. -/
theorem heapFreeRounded_eq {fuel mem size : ℕ} (hl : Linked h h.freeList l) (hf : l.length < fuel)
    (hg : l.Pairwise Gap) (hpos : ∀ x ∈ l, 0 < x.2) (hmem : 0 < mem) (hsz : 0 < size)
    (hap : ∀ x ∈ l, Apart x (mem, size)) :
    ∃ h', heapFreeRounded fuel h mem size = .ok h' ∧ Linked h' h'.freeList (freeChunks mem size l) ∧
      ∀ a, a ≠ mem → a ∉ l.map Prod.fst → SameHeader h h' a := by
  have hap' : ∀ x ∈ l, x.1 + x.2 ≤ mem ∨ mem + size ≤ x.1 := hap
  have hne : ∀ x ∈ l, x.1 ≠ mem := fun x hx => by
    have := hap' x hx
    have := hpos x hx
    omega
  -- The block becomes the first chunk of the list.
  have hfirst : (∀ y ∈ l, mem < y.1) → ∃ h',
      heapMergeNext (((h.setNext (some mem) h.freeList).setSize mem size).setNext none mem) mem = .ok h' ∧
        Linked h' h'.freeList (freeChunks mem size l) ∧ ∀ a, a ≠ mem → a ∉ l.map Prod.fst → SameHeader h h' a := by
    intro hlt
    obtain ⟨h', hok, hl', hfree, hsame⟩ := heapMergeNext_eq (x := (mem, size)) (l := l)
      (h := ((h.setNext (some mem) h.freeList).setSize mem size).setNext none mem)
      ⟨rfl, by omega, by simp, by
        simp only [Heap.setNext_none_next, Heap.setSize_next, Heap.setNext_some_next, update_self]
        exact hl.congr fun y hy => ⟨by simp [hne y hy], by simp [hne y hy]⟩⟩ hsz
      (fun y hy => by have := hap' y hy; have := hlt y hy; omega) hg
    refine ⟨h', hok, ?_, fun a ha _ => SameHeader.trans ⟨by simp [ha], by simp [ha]⟩ (hsame a ha)⟩
    rw [freeChunks_head hlt, hfree]
    exact hl'
  unfold heapFreeRounded
  cases l with
  | nil =>
    have hnull : h.freeList = 0 := hl
    rw [hnull, if_neg (by omega), if_pos (Or.inr rfl), ← hnull]
    exact hfirst nofun
  | cons x l =>
    obtain ⟨hhead, hx0, hxsize, hrest⟩ := id hl
    obtain ⟨hxl, hgl⟩ := pairwise_cons.mp hg
    have hxm := hne x mem_cons_self
    rw [if_neg (show ¬ (mem = 0 ∨ mem = h.freeList) by omega)]
    by_cases hlt : mem < x.1
    · rw [if_pos (Or.inl (hhead ▸ hlt))]
      exact hfirst (forall_le_of_gap hxl hlt)
    · rw [if_neg (show ¬ (mem < h.freeList ∨ h.freeList = 0) by omega)]
      obtain ⟨pre, y, post, hsplit, hwalk, hy, hpost⟩ :=
        @heapFreeWalk_eq h l mem fuel x (hhead ▸ hl) (by omega) hgl (by simp only [length_cons] at hf; omega)
      rw [hsplit] at hl hg hap' hpos ⊢
      obtain ⟨-, hgy, hgpre⟩ := pairwise_append.mp hg
      have hpre : ∀ z ∈ pre, z.1 + z.2 < y.1 := fun z hz => hgpre z hz y mem_cons_self
      have hymem : y ∈ pre ++ y :: post := by simp
      have hafter := @heapFreeAfter_eq h post mem size y hl.drop (hpos y hymem) hsz
        (by have := hap' y hymem; omega)
        (fun z hz => by
          have hz' : z ∈ pre ++ y :: post := by simp [hz]
          have := hap' z hz'
          have := hpos z hz'
          have := hpost z hz
          omega)
        (pairwise_cons.mp hgy).2
      obtain ⟨h', hok, hl', hfree, hsame⟩ := hafter
      refine ⟨h', by rw [hhead, hwalk]; exact hok, ?_, ?_⟩
      · rw [hfree, freeChunks_append fun z hz => Nat.lt_trans (hpre z hz) hy]
        refine hl.replace ?_ hl'
        intro z hz
        have := hpre z hz
        exact hsame z.1 (by omega) (by omega)
      · intro a ha hal
        refine hsame a ?_ ha
        rintro rfl
        exact hal (mem_map_of_mem hymem)

end

end Bertos
