import Bertos.Lib.Machine
import Mathlib.Logic.Function.Basic

/-!
# FIFO buffers between two contexts (`bertos/struct/fifobuf.h`)

A producer calls `fifo_isfull` and `fifo_push`, a consumer `fifo_isempty` and `fifo_pop`, without locks. A step is one
access to what the two share: `fifo_isfull` reads `head` twice, `fifo_push` stores before it moves `tail`, and
`fifo_pop` moves `head` before it reads the slot. The bytes that are pushed and not popped are in their slots, and the
producer does not store into one of them (`FifoInv`): `fifo_safe`, for every interleaving.
-/

namespace Bertos

open List

/-! ## `struct/fifobuf.h` -/

/-- Pointers are addresses; the last slot is at `endPtr`. -/
structure FIFOBuffer where
  head : ℕ
  tail : ℕ
  begin : ℕ
  endPtr : ℕ

def fifoInit (buf size : ℕ) : FIFOBuffer := ⟨buf, buf, buf, buf + size - 1⟩

/-- A pointer moved forward: to the next slot, or around. -/
def FIFOBuffer.forward (fb : FIFOBuffer) (p : ℕ) : ℕ := if p = fb.endPtr then fb.begin else p + 1

/-- `tail` moved forward. -/
def FIFOBuffer.moveTail (fb : FIFOBuffer) : FIFOBuffer := { fb with tail := fb.forward fb.tail }

/-- `head` moved forward. -/
def FIFOBuffer.moveHead (fb : FIFOBuffer) : FIFOBuffer := { fb with head := fb.forward fb.head }

/-- Where the producer is: before `fifo_isfull`, between its two reads of `head`, before the store, before
`tail` is moved. -/
inductive Producer
  | idle
  | testing (c : UInt8)
  | storing (c : UInt8)
  | moving (c : UInt8)

/-- Where the consumer is: before `fifo_isempty`, before `head` is moved, before the slot is read. -/
inductive Consumer
  | idle
  | popping
  | reading (slot : ℕ)

structure FifoState where
  fb : FIFOBuffer
  mem : ℕ → UInt8
  producer : Producer
  consumer : Consumer

inductive FifoAct
  | push (c : UInt8)
  | produce
  | consume

inductive FifoEvent
  | pushed (c : UInt8)
  | popped (c : UInt8)

def produceStep (s : FifoState) : Option (FifoState × List FifoEvent) :=
  match s.producer with
  | .idle => none
  | .testing c =>
    -- `fb->tail == fb->head - 1`
    some ({ s with producer := if s.fb.tail + 1 = s.fb.head then .idle else .storing c }, [])
  | .storing c => some ({ s with mem := Function.update s.mem s.fb.tail c, producer := .moving c }, [])
  | .moving c => some ({ s with fb := s.fb.moveTail, producer := .idle }, [.pushed c])

def consumeStep (s : FifoState) : FifoState × List FifoEvent :=
  match s.consumer with
  | .idle => ({ s with consumer := if s.fb.head = s.fb.tail then .idle else .popping }, [])
  | .popping => ({ s with fb := s.fb.moveHead, consumer := .reading s.fb.head }, [])
  | .reading slot => ({ s with consumer := .idle }, [.popped (s.mem slot)])

def fifoStep (s : FifoState) : FifoAct → Option (FifoState × List FifoEvent)
  | .push c =>
    match s.producer with
    | .idle =>
      -- `(fb->head == fb->begin) && (fb->tail == fb->end)`
      some ({ s with producer := if s.fb.head = s.fb.begin ∧ s.fb.tail = s.fb.endPtr then .idle else .testing c }, [])
    | _ => none
  | .produce => produceStep s
  | .consume => some (consumeStep s)

/-- A producer and a consumer on a buffer after `fifo_init`. -/
def fifoMachine (buf size : ℕ) : Machine FifoState FifoAct FifoEvent where
  init := fun s => s.fb = fifoInit buf size ∧ s.producer = .idle ∧ s.consumer = .idle
  step := fifoStep

/-! ## Slots -/

/-- The bytes pushed so far, from the log with the newest event first. -/
def pushedBytes (log : List FifoEvent) : List UInt8 :=
  log.reverse.filterMap fun
    | .pushed c => some c
    | .popped _ => none

def poppedBytes (log : List FifoEvent) : List UInt8 :=
  log.reverse.filterMap fun
    | .pushed _ => none
    | .popped c => some c

def FIFOBuffer.size (fb : FIFOBuffer) : ℕ := fb.endPtr + 1 - fb.begin

/-- The number of bytes between `head` and `tail`. -/
def FIFOBuffer.count (fb : FIFOBuffer) : ℕ :=
  if fb.head ≤ fb.tail then fb.tail - fb.head else fb.tail + fb.size - fb.head

/-- The `i`-th slot from `p` on. -/
def FIFOBuffer.slot (fb : FIFOBuffer) (p i : ℕ) : ℕ := if p + i ≤ fb.endPtr then p + i else p + i - fb.size

/-- The slots between `head` and `tail`, the oldest byte first. -/
def FIFOBuffer.stored (fb : FIFOBuffer) : List ℕ := (List.range fb.count).map (fb.slot fb.head)

/-- The slots with bytes that have not been read: the one that is about to be, and those that are stored. -/
def FifoState.unread (s : FifoState) : List ℕ :=
  match s.consumer with
  | .reading slot => slot :: s.fb.stored
  | _ => s.fb.stored

/-- The pointers are in the buffer, which has at least two slots. -/
structure FIFOBuffer.Valid (fb : FIFOBuffer) : Prop where
  begin_lt : fb.begin < fb.endPtr
  begin_le_head : fb.begin ≤ fb.head
  head_le : fb.head ≤ fb.endPtr
  begin_le_tail : fb.begin ≤ fb.tail
  tail_le : fb.tail ≤ fb.endPtr

section Slots

variable {fb : FIFOBuffer}

section
variable (h : fb.Valid)
include h

theorem FIFOBuffer.Valid.forward_mem {p : ℕ} (h1 : fb.begin ≤ p) (h2 : p ≤ fb.endPtr) :
    fb.begin ≤ fb.forward p ∧ fb.forward p ≤ fb.endPtr := by
  have hlt := h.begin_lt
  unfold FIFOBuffer.forward
  split <;> omega

theorem FIFOBuffer.Valid.moveTail : fb.moveTail.Valid :=
  have hmem := h.forward_mem h.begin_le_tail h.tail_le
  { h with begin_le_tail := hmem.1, tail_le := hmem.2 }

theorem FIFOBuffer.Valid.moveHead : fb.moveHead.Valid :=
  have hmem := h.forward_mem h.begin_le_head h.head_le
  { h with begin_le_head := hmem.1, head_le := hmem.2 }

theorem FIFOBuffer.Valid.count_lt : fb.count < fb.size := by
  obtain ⟨h1, h2, h3, h4, h5⟩ := h
  unfold FIFOBuffer.count FIFOBuffer.size
  split <;> omega

/-- The two tests of `fifo_isfull` are those for a buffer with one free slot. -/
theorem FIFOBuffer.Valid.free_iff :
    fb.count + 2 ≤ fb.size ↔ ¬ (fb.head = fb.begin ∧ fb.tail = fb.endPtr) ∧ fb.tail + 1 ≠ fb.head := by
  obtain ⟨h1, h2, h3, h4, h5⟩ := h
  unfold FIFOBuffer.count FIFOBuffer.size
  split <;> omega

theorem FIFOBuffer.Valid.count_moveTail (hfree : fb.count + 2 ≤ fb.size) : fb.moveTail.count = fb.count + 1 := by
  obtain ⟨h1, h2, h3, h4, h5⟩ := h
  simp only [FIFOBuffer.count, FIFOBuffer.size, FIFOBuffer.moveTail, FIFOBuffer.forward] at *
  grind

theorem FIFOBuffer.Valid.count_moveHead (hne : fb.head ≠ fb.tail) : fb.moveHead.count + 1 = fb.count := by
  obtain ⟨h1, h2, h3, h4, h5⟩ := h
  simp only [FIFOBuffer.count, FIFOBuffer.size, FIFOBuffer.moveHead, FIFOBuffer.forward]
  grind

/-- The slot after the stored bytes is at `tail`. -/
theorem FIFOBuffer.Valid.slot_count : fb.slot fb.head fb.count = fb.tail := by
  obtain ⟨h1, h2, h3, h4, h5⟩ := h
  simp only [FIFOBuffer.slot, FIFOBuffer.count, FIFOBuffer.size]
  grind

theorem FIFOBuffer.Valid.slot_forward {i : ℕ} (hi : i + 1 < fb.size) :
    fb.slot (fb.forward fb.head) i = fb.slot fb.head (i + 1) := by
  obtain ⟨h1, h2, h3, h4, h5⟩ := h
  simp only [FIFOBuffer.slot, FIFOBuffer.forward, FIFOBuffer.size] at *
  grind

theorem FIFOBuffer.Valid.slot_ne_tail {i : ℕ} (hi : i < fb.count) : fb.slot fb.head i ≠ fb.tail := by
  obtain ⟨h1, h2, h3, h4, h5⟩ := h
  simp only [FIFOBuffer.slot, FIFOBuffer.count, FIFOBuffer.size] at *
  grind

theorem FIFOBuffer.Valid.stored_moveTail (hfree : fb.count + 2 ≤ fb.size) :
    fb.moveTail.stored = fb.stored ++ [fb.tail] := by
  rw [FIFOBuffer.stored, h.count_moveTail hfree, range_succ, map_append, map_singleton]
  exact congrArg (fb.stored ++ [·]) h.slot_count

theorem FIFOBuffer.Valid.stored_moveHead (hne : fb.head ≠ fb.tail) : fb.stored = fb.head :: fb.moveHead.stored := by
  have hlt := h.count_lt
  have hcount := h.count_moveHead hne
  have hfirst : fb.slot fb.head 0 = fb.head := if_pos h.head_le
  rw [FIFOBuffer.stored, ← hcount, range_succ_eq_map, map_cons, hfirst, map_map, FIFOBuffer.stored]
  refine congrArg (fb.head :: ·) (map_congr_left fun i hi => ?_)
  rw [mem_range] at hi
  exact (h.slot_forward (by omega)).symm

/-- The slot at `tail` has no byte that is stored. -/
theorem FIFOBuffer.Valid.tail_not_mem : fb.tail ∉ fb.stored := by
  intro hmem
  obtain ⟨i, hi, he⟩ := mem_map.mp hmem
  exact h.slot_ne_tail (mem_range.mp hi) he

end

end Slots

/-! ## Every interleaving -/

section Runs

/-- What the producer knows: from the first test, and then that a slot is free. -/
def ProducerOk (fb : FIFOBuffer) (mem : ℕ → UInt8) : Producer → Prop
  | .idle => True
  | .testing _ => ¬ (fb.head = fb.begin ∧ fb.tail = fb.endPtr)
  | .storing _ => fb.count + 2 ≤ fb.size
  | .moving c => fb.count + 2 ≤ fb.size ∧ mem fb.tail = c

/-- What the consumer knows: that there is a byte, and then that its slot is the one before `head`. -/
def ConsumerOk (fb : FIFOBuffer) : Consumer → Prop
  | .idle => True
  | .popping => fb.head ≠ fb.tail
  | .reading slot => fb.forward slot = fb.head ∧ slot ≤ fb.endPtr

/-- **What holds in every interleaving.** -/
structure FifoInv (size : ℕ) (s : FifoState) (log : List FifoEvent) : Prop where
  valid : s.fb.Valid
  size_eq : s.fb.size = size
  producer : ProducerOk s.fb s.mem s.producer
  consumer : ConsumerOk s.fb s.consumer
  bytes : pushedBytes log = poppedBytes log ++ s.unread.map s.mem

variable {fb : FIFOBuffer} {mem : ℕ → UInt8} {size : ℕ} {s s' : FifoState} {log e : List FifoEvent}

theorem pushedBytes_pushed (c : UInt8) (log : List FifoEvent) :
    pushedBytes (.pushed c :: log) = pushedBytes log ++ [c] ∧ poppedBytes (.pushed c :: log) = poppedBytes log := by
  simp [pushedBytes, poppedBytes]

theorem pushedBytes_popped (c : UInt8) (log : List FifoEvent) :
    pushedBytes (.popped c :: log) = pushedBytes log ∧ poppedBytes (.popped c :: log) = poppedBytes log ++ [c] := by
  simp [pushedBytes, poppedBytes]

/-- The producer writes where nothing is unread. -/
theorem tail_not_mem_unread (hv : s.fb.Valid) (hc : ConsumerOk s.fb s.consumer) (hfree : s.fb.count + 2 ≤ s.fb.size) :
    s.fb.tail ∉ s.unread := by
  have hstored := hv.tail_not_mem
  unfold FifoState.unread
  split
  · next slot hs =>
    rw [hs] at hc
    obtain ⟨hnext, hle⟩ := hc
    -- `tail` is not the slot before `head`: the buffer would be full
    have hne : s.fb.tail ≠ slot := by
      rintro rfl
      obtain ⟨hfull, hfull'⟩ := hv.free_iff.mp hfree
      unfold FIFOBuffer.forward at hnext
      split at hnext
      · next h => exact hfull ⟨hnext.symm, h⟩
      · exact hfull' hnext
    exact not_mem_cons_of_ne_of_not_mem hne hstored
  · exact hstored

theorem map_update_of_not_mem {slots : List ℕ} {p : ℕ} {c : UInt8} (h : p ∉ slots) :
    slots.map (Function.update mem p c) = slots.map mem :=
  map_congr_left fun i hi => Function.update_of_ne (fun he : i = p => h (he ▸ hi)) c mem

theorem unread_moveTail (hv : s.fb.Valid) (hfree : s.fb.count + 2 ≤ s.fb.size) (producer : Producer) :
    FifoState.unread { s with fb := s.fb.moveTail, producer := producer } = s.unread ++ [s.fb.tail] := by
  unfold FifoState.unread
  cases s.consumer <;> simp only [hv.stored_moveTail hfree, cons_append]

/-- Moving `head` leaves the slots that have not been read. -/
theorem unread_moveHead (hv : s.fb.Valid) (hs : s.consumer = .popping) (hne : s.fb.head ≠ s.fb.tail) :
    FifoState.unread { s with fb := s.fb.moveHead, consumer := .reading s.fb.head } = s.unread := by
  have hunread : s.unread = s.fb.stored := by
    unfold FifoState.unread
    rw [hs]
  rw [hunread, hv.stored_moveHead hne]
  rfl

/-- The consumer is not disturbed when `tail` is moved. -/
theorem consumerOk_moveTail (hv : s.fb.Valid) (hfree : s.fb.count + 2 ≤ s.fb.size) (hc : ConsumerOk s.fb s.consumer) :
    ConsumerOk s.fb.moveTail s.consumer := by
  cases hs : s.consumer with
  | idle => exact trivial
  | popping =>
    -- there is a byte more, so the buffer is not empty
    intro he
    have hcount := hv.count_moveTail hfree
    rw [FIFOBuffer.count, if_pos (Nat.le_of_eq he), he, Nat.sub_self] at hcount
    omega
  | reading slot =>
    rw [hs] at hc
    exact hc

/-- The producer is not disturbed when `head` is moved. -/
theorem producerOk_moveHead (hv : s.fb.Valid) (hne : s.fb.head ≠ s.fb.tail) (hp : ProducerOk s.fb s.mem s.producer) :
    ProducerOk s.fb.moveHead s.mem s.producer := by
  have hcount := hv.count_moveHead hne
  have hsize : s.fb.moveHead.size = s.fb.size := rfl
  cases hs : s.producer with
  | idle => exact trivial
  | testing c =>
    -- `head` has passed `end` only if it was there, as `tail` is
    rintro ⟨hhead, htail⟩
    have hle := hv.begin_le_head
    simp only [FIFOBuffer.moveHead, FIFOBuffer.forward] at hhead htail
    split at hhead
    · next h => exact hne (h.trans htail.symm)
    · omega
  | storing c =>
    rw [hs] at hp
    have hfree : s.fb.count + 2 ≤ s.fb.size := hp
    show s.fb.moveHead.count + 2 ≤ s.fb.moveHead.size
    omega
  | moving c =>
    rw [hs] at hp
    obtain ⟨hfree, hmem⟩ := hp
    refine ⟨?_, hmem⟩
    omega

theorem fifoInv_push {c : UInt8} (h : FifoInv size s log) :
    FifoInv size { s with
      producer := if s.fb.head = s.fb.begin ∧ s.fb.tail = s.fb.endPtr then .idle else .testing c } log := by
  refine ⟨h.valid, h.size_eq, ?_, h.consumer, h.bytes⟩
  dsimp only
  split
  · exact trivial
  · next hfull => exact hfull

/-- A step of the producer keeps the invariant, -/
theorem fifoInv_produce (h : FifoInv size s log) (hs : produceStep s = some (s', e)) : FifoInv size s' (e ++ log) := by
  obtain ⟨hv, hsize, hp, hc, hbytes⟩ := h
  unfold produceStep at hs
  split at hs
  · cases hs
  · next c hs' =>
    cases hs
    rw [hs'] at hp
    refine ⟨hv, hsize, ?_, hc, hbytes⟩
    dsimp only
    split
    · exact trivial
    · next hne => exact hv.free_iff.mpr ⟨hp, hne⟩
  · next c hs' =>
    cases hs
    rw [hs'] at hp
    have hunread : s.unread.map (Function.update s.mem s.fb.tail c) = s.unread.map s.mem :=
      map_update_of_not_mem (tail_not_mem_unread hv hc hp)
    exact ⟨hv, hsize, ⟨hp, Function.update_self ..⟩, hc, hbytes.trans (congrArg (poppedBytes log ++ ·) hunread.symm)⟩
  · next c hs' =>
    cases hs
    rw [hs'] at hp
    obtain ⟨hfree, hmem⟩ := hp
    obtain ⟨hpush, hpop⟩ := pushedBytes_pushed c log
    refine ⟨hv.moveTail, hsize, trivial, consumerOk_moveTail hv hfree hc, ?_⟩
    rw [singleton_append, hpush, hpop, hbytes, unread_moveTail hv hfree, map_append, append_assoc,
      map_singleton, hmem]

/-- and so does one of the consumer. -/
theorem fifoInv_consume (h : FifoInv size s log) : FifoInv size (consumeStep s).1 ((consumeStep s).2 ++ log) := by
  obtain ⟨hv, hsize, hp, hc, hbytes⟩ := h
  unfold consumeStep
  split
  · next hs =>
    have hunread : FifoState.unread { s with consumer := if s.fb.head = s.fb.tail then .idle else .popping } =
        s.unread := by
      by_cases he : s.fb.head = s.fb.tail
      · simp [FifoState.unread, hs, he]
      · simp [FifoState.unread, hs, he]
    refine ⟨hv, hsize, hp, ?_, hbytes.trans (congrArg (fun slots => poppedBytes log ++ slots.map s.mem) hunread.symm)⟩
    dsimp only
    split
    · exact trivial
    · next hne => exact hne
  · next hs =>
    rw [hs] at hc
    refine ⟨hv.moveHead, hsize, producerOk_moveHead hv hc hp, ⟨rfl, hv.head_le⟩, ?_⟩
    exact hbytes.trans (congrArg (fun slots => poppedBytes log ++ slots.map s.mem) (unread_moveHead hv hs hc).symm)
  · next slot hs =>
    obtain ⟨hpush, hpop⟩ := pushedBytes_popped (s.mem slot) log
    have hunread : s.unread = slot :: s.fb.stored := by
      unfold FifoState.unread
      rw [hs]
    refine ⟨hv, hsize, hp, trivial, ?_⟩
    rw [singleton_append, hpush, hpop, hbytes, hunread, map_cons, append_assoc]
    rfl

/-- The invariant, for every interleaving. -/
theorem fifoInv_run {buf : ℕ} (hsize : 2 ≤ size) (h : (fifoMachine buf size).Run (fun _ _ => True) s log) :
    FifoInv size s log := by
  refine h.invariant (I := FifoInv size) ?_ ?_
  · rintro s ⟨hfb, hp, hc⟩
    have hvalid : s.fb.Valid := by
      rw [hfb]
      constructor <;> simp only [fifoInit] <;> omega
    have hunread : s.unread = [] := by
      unfold FifoState.unread
      rw [hc, hfb]
      simp [FIFOBuffer.stored, FIFOBuffer.count, fifoInit]
    refine ⟨hvalid, ?_, hp ▸ trivial, hc ▸ trivial, ?_⟩
    · rw [hfb]
      simp only [FIFOBuffer.size, fifoInit]
      omega
    · rw [hunread]
      rfl
  · intro s log a s' e hinv _ hs
    cases a with
    | push c =>
      simp only [fifoMachine, fifoStep] at hs
      split at hs
      · cases hs
        exact fifoInv_push hinv
      · cases hs
    | produce => exact fifoInv_produce hinv hs
    | consume =>
      have hstep : consumeStep s = (s', e) := Option.some.inj hs
      have hnext := fifoInv_consume hinv
      rwa [hstep] at hnext

/-- **The FIFO is safe** for one producer and one consumer: what is pushed is what has been popped and then the bytes in
the slots that have not been read, no store goes to one of these, and at most `size - 1` bytes are stored. -/
theorem fifo_safe (buf : ℕ) {size : ℕ} (hsize : 2 ≤ size) {s : FifoState} {log : List FifoEvent}
    (h : (fifoMachine buf size).Run (fun _ _ => True) s log) :
    poppedBytes log <+: pushedBytes log ∧ pushedBytes log = poppedBytes log ++ s.unread.map s.mem ∧
      (∀ c, s.producer = .storing c → s.fb.tail ∉ s.unread) ∧ s.fb.stored.length ≤ size - 1 := by
  have hinv := fifoInv_run hsize h
  refine ⟨⟨_, hinv.bytes.symm⟩, hinv.bytes, fun c hs => ?_, ?_⟩
  · have hfree := hinv.producer
    rw [hs] at hfree
    exact tail_not_mem_unread hinv.valid hinv.consumer hfree
  · have hlt := hinv.valid.count_lt
    rw [hinv.size_eq] at hlt
    rw [FIFOBuffer.stored, length_map, length_range]
    omega

/-- In a buffer of two bytes, the consumer has moved `head` and not yet read, while the producer
stores the next byte. -/
theorem fifo_safe_overlap : ∃ s log, (fifoMachine 0 2).Run (fun _ _ => True) s log ∧ s.consumer = .reading 0 ∧
    s.producer = .storing 8 ∧ s.fb.tail ∉ s.unread ∧ pushedBytes log = [7] ∧ s.unread.map s.mem = [7] := by
  have hinit : (fifoMachine 0 2).Run (fun _ _ => True) ⟨fifoInit 0 2, fun _ => 0, .idle, .idle⟩ [] :=
    .init ⟨rfl, rfl, rfl⟩
  have hrun := @Machine.Run.exec _ _ _ _ (fun _ _ => True) _ _ _ hinit
    [.push 7, .produce, .produce, .produce, .consume, .consume, .push 8, .produce] _ rfl
  obtain ⟨-, hbytes, hstore, -⟩ := fifo_safe 0 (Nat.le_refl 2) hrun
  exact ⟨_, _, hrun, rfl, rfl, hstore 8 rfl, rfl, hbytes.symm⟩

end Runs

end Bertos
