import Bertos.Net.Xmodem
import Mathlib.Data.List.InsertIdx

/-!
# XMODEM transfers are exact

The receiver acknowledges a block once, when it writes it, and `XM_EOT` once. So the sender is never more than one
block ahead of what has been written, and the numbers of the blocks in the channel are those of the last block or of
the next one: modulo 256 they cannot be confused (`XmInv`). A receiver with checksums may take the last byte of a block
with CRC for the beginning of a message; it then purges, or ends the transfer too early.

The destination is a beginning of the padded file, all of it when both ends have succeeded (`xmodem_exact`). A good
copy of a block that has been written is not acknowledged (`xmodem_copy_iff`).
-/

namespace Bertos

open Nat

open List Option UInt8

/-! ## The blocks of a file -/

section Blocks

variable (cfg : XmConfig) (file : List UInt8)

theorem XmConfig.bufsize_pos : 0 < cfg.bufsize := by
  unfold XmConfig.bufsize
  split <;> decide

def xmBlocks : ℕ := (xmPadded cfg file).length / cfg.bufsize

def xmBlock (i : ℕ) : List UInt8 := ((xmPadded cfg file).drop (i * cfg.bufsize)).take cfg.bufsize

theorem pad_cases : ∃ n, file.length + (cfg.bufsize - file.length % cfg.bufsize) % cfg.bufsize = n * cfg.bufsize ∧
    n * cfg.bufsize < file.length + cfg.bufsize := by
  have hpos := cfg.bufsize_pos
  have hdiv := Nat.div_add_mod' file.length cfg.bufsize
  have hlt := Nat.mod_lt file.length hpos
  generalize file.length / cfg.bufsize = q at hdiv
  by_cases h0 : file.length % cfg.bufsize = 0
  · refine ⟨q, ?_, by omega⟩
    rw [h0, Nat.sub_zero, Nat.mod_self]
    omega
  · refine ⟨q + 1, ?_, ?_⟩
    · rw [Nat.mod_eq_of_lt (by omega), Nat.succ_mul]
      omega
    · rw [Nat.succ_mul]
      omega

theorem length_xmPadded : (xmPadded cfg file).length = xmBlocks cfg file * cfg.bufsize := by
  obtain ⟨n, hn, -⟩ := pad_cases cfg file
  have hlen : (xmPadded cfg file).length = n * cfg.bufsize := by
    rw [← hn, xmPadded, length_append, length_replicate]
  rw [xmBlocks, hlen, Nat.mul_div_cancel _ cfg.bufsize_pos]

theorem xmBlocks_bounds : file.length ≤ xmBlocks cfg file * cfg.bufsize ∧
    xmBlocks cfg file * cfg.bufsize < file.length + cfg.bufsize := by
  obtain ⟨n, hn, hlt⟩ := pad_cases cfg file
  have hlen := length_xmPadded cfg file
  rw [xmPadded, length_append, length_replicate] at hlen
  omega

variable {cfg file} {i : ℕ}

theorem lt_xmBlocks_iff : i < xmBlocks cfg file ↔ i * cfg.bufsize < file.length := by
  obtain ⟨h1, h2⟩ := xmBlocks_bounds cfg file
  constructor
  · intro h
    have := Nat.mul_le_mul_right cfg.bufsize (Nat.succ_le_of_lt h)
    rw [Nat.succ_mul] at this
    omega
  · intro h
    exact Nat.lt_of_mul_lt_mul_right (Nat.lt_of_lt_of_le h h1)

theorem length_xmBlock (hi : i < xmBlocks cfg file) : (xmBlock cfg file i).length = cfg.bufsize := by
  have h := mul_le_mul_right cfg.bufsize (succ_le_of_lt hi)
  rw [succ_mul] at h
  rw [xmBlock, length_take, length_drop, length_xmPadded]
  omega

theorem take_append_xmBlock : (xmPadded cfg file).take (i * cfg.bufsize) ++ xmBlock cfg file i =
    (xmPadded cfg file).take ((i + 1) * cfg.bufsize) := by
  rw [succ_mul, take_add, xmBlock]

/-- A block as the sender reads and pads it. -/
theorem padded_chunk (hi : i < xmBlocks cfg file) :
    (file.drop (i * cfg.bufsize)).take cfg.bufsize ++
      List.replicate (cfg.bufsize - ((file.drop (i * cfg.bufsize)).take cfg.bufsize).length) 0xFF =
    xmBlock cfg file i := by
  have hlt := lt_xmBlocks_iff.mp hi
  obtain ⟨n, hn, hn'⟩ := pad_cases cfg file
  rw [xmBlock, xmPadded, drop_append_of_le_length (Nat.le_of_lt hlt), take_append, take_replicate,
    length_take, length_drop]
  congr 2
  obtain hge | hge := Nat.lt_or_ge (file.length - i * cfg.bufsize) cfg.bufsize
  · -- this is the last block
    have hlast : n = i + 1 := by
      have h1 : i * cfg.bufsize < n * cfg.bufsize := by omega
      have h2 : n * cfg.bufsize < (i + 2) * cfg.bufsize := by
        rw [Nat.succ_mul, Nat.succ_mul]
        omega
      have := Nat.lt_of_mul_lt_mul_right h1
      have := Nat.lt_of_mul_lt_mul_right h2
      omega
    rw [hlast, Nat.succ_mul] at hn
    omega
  · omega

end Blocks

/-! ## The invariant -/

inductive XmItem
  | eot
  | block (m : ℕ) (usecrc : Bool)

/-- The order of the blocks. -/
def XmItem.Le : XmItem → XmItem → Prop
  | .block m _, .block m' _ => m ≤ m'
  | _, _ => True

section Invariant

variable (cfg : XmConfig) (file : List UInt8)

def XmItem.encode : XmItem → List UInt8
  | .eot => [xmEot]
  | .block m usecrc => blockMessage cfg m usecrc (xmBlock cfg file (m - 1))

/-- A block that may be in the channel: not before the last one that the receiver has seen, and sent by the sender. -/
structure Sendable (x : XmState) (m : ℕ) (u : Bool) : Prop where
  recv_le : x.recv.blocknr ≤ m
  le_send : m ≤ x.send.blocknr
  pos : 1 ≤ m
  le : m ≤ xmBlocks cfg file
  crc : x.recv.usecrc = true → u = true

structure Pending (x : XmState) (items : List XmItem) (m : ℕ) (u : Bool) : Prop where
  sendable : Sendable cfg file x m u
  first : ∀ m' u', .block m' u' ∈ items → m ≤ m'

/-- The data of a block with its check bytes. -/
def blockTail (m : ℕ) (u : Bool) : List UInt8 := xmBlock cfg file (m - 1) ++ checkBytes u (xmBlock cfg file (m - 1))

def ReadingOk (x : XmState) (items : List XmItem) : XmPc → Prop
  | .loop => x.recv.purge = true ∨ x.cur = [] ∨ ∃ b, x.cur = [b]
  | .number blocksize =>
    (∃ m u, Pending cfg file x items m u ∧ blocksize = cfg.bufsize ∧
      x.cur = UInt8.ofNat m :: ~~~UInt8.ofNat m :: blockTail cfg file m u) ∨ x.cur = []
  | .complement blocksize c =>
    (∃ m u, Pending cfg file x items m u ∧ blocksize = cfg.bufsize ∧ c = some (UInt8.ofNat m) ∧
      x.cur = ~~~UInt8.ofNat m :: blockTail cfg file m u) ∨
    -- the byte before was not the beginning of a message
    (c = none ∨ c = some xmEot) ∧ x.cur = [] ∨
    ∃ m u, Pending cfg file x items m u ∧ c = some cfg.header ∧
      x.cur = UInt8.ofNat m :: ~~~UInt8.ofNat m :: blockTail cfg file m u
  | .data blocksize buf _ _ =>
    ∃ u rest, Pending cfg file x items x.recv.blocknr u ∧ blocksize = cfg.bufsize ∧ rest ≠ [] ∧
      buf ++ rest = xmBlock cfg file (x.recv.blocknr - 1) ∧
      x.cur = rest ++ checkBytes u (xmBlock cfg file (x.recv.blocknr - 1))
  | .check buf _ _ =>
    ∃ u, Pending cfg file x items x.recv.blocknr u ∧ buf = xmBlock cfg file (x.recv.blocknr - 1) ∧
      x.cur = checkBytes u (xmBlock cfg file (x.recv.blocknr - 1))
  | .crcLsb buf _ =>
    ∃ u b, Pending cfg file x items x.recv.blocknr u ∧ buf = xmBlock cfg file (x.recv.blocknr - 1) ∧ x.cur = [b]

/-- Nothing has been sent by the sender, and it has been asked for nothing but CRC. -/
structure XmFresh (x : XmState) (items : List XmItem) : Prop where
  items : items = []
  cur : x.cur = []
  pc : x.recv.pc = .loop
  blocknr : x.recv.blocknr = 0
  toSend : ∀ c ∈ x.toSend, c = xmC ∨ c = xmCan

structure SenderOk (s : XmSend) : Prop where
  pos : 1 ≤ s.blocknr
  le : s.blocknr ≤ xmBlocks cfg file + 1
  buf : s.buf = (file.drop ((s.blocknr - 1) * cfg.bufsize)).take cfg.bufsize
  file : s.file = file.drop (s.blocknr * cfg.bufsize)

/-- **What holds in every run**: with `items` in the channel to the receiver. The acknowledgements that the sender has
got, or will get, are those of the blocks that are written, and the one of `XM_EOT`. -/
structure XmInv (x : XmState) (items : List XmItem) : Prop where
  channel : x.toRecv = items.map (XmItem.encode cfg file)
  sorted : items.Pairwise XmItem.Le
  blocks : ∀ m u, .block m u ∈ items → Sendable cfg file x m u
  sender : SenderOk cfg file x.send
  recv_le : x.recv.blocknr ≤ x.send.blocknr
  acks : x.send.blocknr + x.toSend.count xmAck + (if x.send.result = some true then 1 else 0) ≤
    x.recv.lastBlockDone + 1 + (if x.recv.result = some true then 1 else 0)
  blocknr : x.recv.lastBlockDone = x.recv.blocknr ∨ x.recv.lastBlockDone + 1 = x.recv.blocknr
  dest : x.recv.dest = (xmPadded cfg file).take (x.recv.lastBlockDone * cfg.bufsize)
  mode : x.recv.usecrc = true → x.send.usecrc = true ∨ XmFresh x items
  purge : x.recv.pc ≠ .loop → x.recv.purge = false
  reading : x.recv.result = none → ReadingOk cfg file x items x.recv.pc
  done : x.send.result = some true → xmBlocks cfg file < x.send.blocknr

end Invariant

section Frame

variable {cfg : XmConfig} {file : List UInt8} {x x' : XmState} {items items' : List XmItem} {m : ℕ} {u : Bool}

theorem Sendable.mono (h : Sendable cfg file x m u) (hr : x'.recv.blocknr = x.recv.blocknr)
    (hs : x.send.blocknr ≤ x'.send.blocknr) (hc : x'.recv.usecrc = true → x.recv.usecrc = true) :
    Sendable cfg file x' m u :=
  ⟨hr ▸ h.recv_le, Nat.le_trans h.le_send hs, h.pos, h.le, fun hu => h.crc (hc hu)⟩

/-- What is about to be read does not change when nothing that it depends on does. -/
theorem ReadingOk.mono {pc : XmPc} (h : ReadingOk cfg file x items pc)
    (hP : ∀ m u, Pending cfg file x items m u → Pending cfg file x' items' m u) (hcur : x'.cur = x.cur)
    (hr : x'.recv.blocknr = x.recv.blocknr) (hp : x.recv.purge = true → x'.recv.purge = true) :
    ReadingOk cfg file x' items' pc := by
  cases pc with
  | loop =>
    simp only [ReadingOk, hcur] at h ⊢
    exact h.imp_left hp
  | number blocksize =>
    simp only [ReadingOk, hcur] at h ⊢
    exact h.imp_left fun ⟨m, u, hm, he⟩ => ⟨m, u, hP m u hm, he⟩
  | complement blocksize c =>
    simp only [ReadingOk, hcur] at h ⊢
    obtain ⟨m, u, hm, he⟩ | h | ⟨m, u, hm, he⟩ := h
    · exact .inl ⟨m, u, hP m u hm, he⟩
    · exact .inr (.inl h)
    · exact .inr (.inr ⟨m, u, hP m u hm, he⟩)
  | data blocksize buf crc checksum =>
    simp only [ReadingOk, hcur, hr] at h ⊢
    obtain ⟨u, rest, hm, he⟩ := h
    exact ⟨u, rest, hP _ u hm, he⟩
  | check buf crc checksum =>
    simp only [ReadingOk, hcur, hr] at h ⊢
    obtain ⟨u, hm, he⟩ := h
    exact ⟨u, hP _ u hm, he⟩
  | crcLsb buf crc =>
    simp only [ReadingOk, hcur, hr] at h ⊢
    obtain ⟨u, b, hm, he⟩ := h
    exact ⟨u, b, hP _ u hm, he⟩

end Frame

/-! ## The sender -/

section Send

variable {cfg : XmConfig} {file : List UInt8} {x : XmState} {items : List XmItem}

/-- The sender may step when its acknowledgements cover it. -/
theorem XmInv.setSend (h : XmInv cfg file x items) {send : XmSend} {cs : List UInt8} (hok : SenderOk cfg file send)
    (hle : x.send.blocknr ≤ send.blocknr)
    (hacks : send.blocknr + cs.count xmAck + (if send.result = some true then 1 else 0) ≤
      x.recv.lastBlockDone + 1 + (if x.recv.result = some true then 1 else 0))
    (hmode : x.recv.usecrc = true → send.usecrc = true ∨ XmFresh { x with send := send, toSend := cs } items)
    (hdone : send.result = some true → xmBlocks cfg file < send.blocknr) :
    XmInv cfg file { x with send := send, toSend := cs } items := by
  have hS : ∀ m u, Sendable cfg file x m u → Sendable cfg file { x with send := send, toSend := cs } m u :=
    fun m u hm => hm.mono rfl hle fun hu => hu
  exact { h with
    blocks := fun m u hm => hS m u (h.blocks m u hm)
    sender := hok
    recv_le := Nat.le_trans h.recv_le hle
    acks := hacks
    mode := hmode
    reading := fun hr => (h.reading hr).mono (fun m u hm => ⟨hS m u hm.sendable, hm.first⟩) rfl rfl fun hp => hp
    done := hdone }

def XmSend.item (s : XmSend) : XmItem := if s.buf.length = 0 then .eot else .block s.blocknr s.usecrc

theorem SenderOk.block_le_iff {s : XmSend} (h : SenderOk cfg file s) :
    s.buf.length ≠ 0 ↔ s.blocknr ≤ xmBlocks cfg file := by
  have hpos := h.pos
  have hsize := cfg.bufsize_pos
  have hlt : s.buf.length ≠ 0 ↔ s.blocknr - 1 < xmBlocks cfg file := by
    rw [lt_xmBlocks_iff, h.buf, length_take, length_drop]
    omega
  omega

theorem SenderOk.encode_item {s : XmSend} (h : SenderOk cfg file s) : s.item.encode cfg file = s.message cfg := by
  unfold XmSend.item XmSend.message
  by_cases h0 : s.buf.length = 0
  · rw [if_pos h0, if_pos h0]
    rfl
  · have hpos := h.pos
    have hle := h.block_le_iff.mp h0
    rw [if_neg h0, if_neg h0, h.buf, padded_chunk (by omega)]
    rfl

/-- Sending the current block keeps the invariant. -/
theorem XmInv.enqueue (h : XmInv cfg file x items) (hmode : x.recv.usecrc = true → x.send.usecrc = true) :
    XmInv cfg file { x with toRecv := x.toRecv ++ [x.send.message cfg] } (items ++ [x.send.item]) := by
  have hnew : ∀ m u, .block m u ∈ items ++ [x.send.item] → .block m u ∈ items ∨
      m = x.send.blocknr ∧ u = x.send.usecrc ∧ x.send.buf.length ≠ 0 := by
    intro m u hm
    obtain hm | hm := mem_append.mp hm
    · exact .inl hm
    · rw [mem_singleton, XmSend.item] at hm
      split_ifs at hm with h0
      cases hm
      exact .inr ⟨rfl, rfl, h0⟩
  refine { h with
    channel := ?_
    sorted := ?_
    blocks := fun m u hm => ?_
    mode := fun hu => .inl (hmode hu)
    reading := fun hr => (h.reading hr).mono (fun m u hm => ⟨?_, fun m' u' hm' => ?_⟩) rfl rfl fun hp => hp }
  · rw [map_append, map_singleton, h.sender.encode_item, ← h.channel]
  · refine pairwise_append.mpr ⟨h.sorted, pairwise_singleton _ _, fun a ha b hb => ?_⟩
    rw [mem_singleton] at hb
    subst hb
    cases a with
    | eot => exact trivial
    | block m u =>
      have hle := (h.blocks m u ha).le_send
      unfold XmSend.item
      split
      · exact trivial
      · exact hle
  · obtain hm | ⟨rfl, rfl, h0⟩ := hnew m u hm
    · exact (h.blocks m u hm).mono rfl (Nat.le_refl _) fun hu => hu
    · exact ⟨h.recv_le, Nat.le_refl _, h.sender.pos, h.sender.block_le_iff.mp h0, hmode⟩
  · exact hm.sendable.mono rfl (Nat.le_refl _) fun hu => hu
  · obtain hm' | ⟨rfl, -, -⟩ := hnew m' u' hm'
    · exact hm.first m' u' hm'
    · exact hm.sendable.le_send

theorem SenderOk.next {s : XmSend} (h : SenderOk cfg file s) (h0 : s.buf.length ≠ 0) (retries : ℕ) :
    SenderOk cfg file { s.readBlock cfg with blocknr := s.blocknr + 1, retries := retries } where
  pos := le_add_left 1 _
  le := succ_le_succ (h.block_le_iff.mp h0)
  buf := by
    exact congrArg (take cfg.bufsize) h.file
  file := by
    show s.file.drop cfg.bufsize = _
    rw [h.file, drop_drop, succ_mul]

section
variable (h : XmInv cfg file x items)
include h

/-- A sender that gets what is not a request for CRC has got one before, if the receiver uses CRC. -/
theorem XmInv.crc_of_mem {c : UInt8} (hc : c ∈ x.toSend) (h1 : c ≠ xmC) (h2 : c ≠ xmCan)
    (hu : x.recv.usecrc = true) : x.send.usecrc = true := by
  obtain hs | hf := h.mode hu
  · exact hs
  · obtain rfl | rfl := hf.toSend c hc
    · exact absurd rfl h1
    · exact absurd rfl h2

theorem XmInv.keepSend {send : XmSend} {cs : List UInt8} (hcs : cs.Sublist x.toSend)
    (hok : SenderOk cfg file send) (hnr : send.blocknr = x.send.blocknr) (hres : send.result ≠ some true)
    (hcrc : x.send.usecrc = true → send.usecrc = true) :
    XmInv cfg file { x with send := send, toSend := cs } items := by
  have hacks := h.acks
  have hcount := hcs.count_le xmAck
  refine h.setSend hok (Nat.le_of_eq hnr.symm) ?_ (fun hu => ?_) fun hr => absurd hr hres
  · rw [if_neg hres]
    omega
  · refine (h.mode hu).imp hcrc fun hf => ?_
    exact { hf with toSend := fun c hc => hf.toSend c (hcs.subset hc) }

/-- **The sender** keeps the invariant. -/
theorem XmInv.sendGot {c : UInt8} {cs : List UInt8} (hcs : x.toSend = c :: cs)
    (hres : x.send.result = none) : ∃ items', XmInv cfg file ({ x with toSend := cs }.sendGot cfg (some c)) items' := by
  have hmem : c ∈ x.toSend := hcs ▸ mem_cons_self
  have hsub : cs.Sublist x.toSend := hcs ▸ sublist_cons_self c cs
  have hnone : x.send.result ≠ some true := by rw [hres]; decide
  have hok := h.sender
  unfold XmState.sendGot Bertos.sendGot
  by_cases hnak : c = xmNak
  · have hsend := (h.keepSend hsub hok rfl hnone fun hu => hu).enqueue
      fun hu => h.crc_of_mem hmem (by rw [hnak]; decide) (by rw [hnak]; decide) hu
    simp only [if_pos hnak]
    exact ⟨_, hsend⟩
  by_cases hC : c = xmC
  · have hok' : SenderOk cfg file { x.send with usecrc := true } := { hok with }
    have hsend := (h.keepSend hsub hok' rfl hnone fun _ => rfl).enqueue fun _ => rfl
    simp only [if_neg hnak, if_pos hC]
    exact ⟨_, hsend⟩
  by_cases hack : c = xmAck
  · -- an acknowledgement is used up, for a block or for the end
    have hacks := h.acks
    rw [hcs, count_cons, if_pos (by rw [hack]; rfl), if_neg hnone] at hacks
    have hcrc : x.recv.usecrc = true → x.send.usecrc = true :=
      fun hu => h.crc_of_mem hmem hC (by rw [hack]; decide) hu
    by_cases h0 : x.send.buf.length = 0
    · have hlast : xmBlocks cfg file < x.send.blocknr := by
        have hiff := hok.block_le_iff
        omega
      have hset := @XmInv.setSend _ _ _ _ h { x.send with result := some true } cs { hok with }
        (Nat.le_refl _) (by rw [if_pos rfl]; omega) (fun hu => .inl (hcrc hu)) fun _ => hlast
      simp only [if_neg hnak, if_neg hC, if_pos hack, if_pos h0]
      exact ⟨_, hset⟩
    · have hsum : x.send.blocknr + 1 + cs.count xmAck + (if x.send.result = some true then 1 else 0) ≤
          x.recv.lastBlockDone + 1 + (if x.recv.result = some true then 1 else 0) := by
        rw [if_neg hnone]
        omega
      have hset := @XmInv.setSend _ _ _ _ h _ cs (hok.next h0 0) (Nat.le_succ _) hsum (fun hu => .inl (hcrc hu))
        fun hr => absurd hr hnone
      simp only [if_neg hnak, if_neg hC, if_pos hack, if_neg h0]
      exact ⟨_, hset.enqueue hcrc⟩
  by_cases hcan : c = xmCan
  · have hset := @XmInv.keepSend _ _ _ _ h { x.send with result := some false } cs hsub
      { hok with } rfl (by simp) fun hu => hu
    simp only [if_neg hnak, if_neg hC, if_neg hack, if_pos hcan]
    exact ⟨_, hset⟩
  · simp only [if_neg hnak, if_neg hC, if_neg hack, if_neg hcan]
    exact ⟨_, h.keepSend hsub hok rfl hnone fun hu => hu⟩

theorem XmInv.sendFails (retries : ℕ) {result : Option Bool} (hres : result ≠ some true) :
    XmInv cfg file { x with send := { x.send with retries := retries, result := result } } items :=
  @XmInv.keepSend _ _ _ _ h { x.send with retries := retries, result := result } x.toSend (List.Sublist.refl _)
    { h.sender with } rfl hres fun hu => hu

end

end Send

/-! ## The receiver -/

section Recv

variable {cfg : XmConfig} {file : List UInt8} {x : XmState} {items items' : List XmItem} {cur : List UInt8}

def XmState.setRecv (x : XmState) (cfg : XmConfig) (file : List UInt8) (recv : XmRecv) (cur : List UInt8)
    (items : List XmItem) (sent : List UInt8) : XmState :=
  ⟨x.send, recv, cur, items.map (XmItem.encode cfg file), x.toSend ++ sent⟩

/-- The invariant after a step of the receiver, which sends something. -/
abbrev RecvOk (cfg : XmConfig) (file : List UInt8) (x : XmState) (cur : List UInt8) (items : List XmItem)
    (r : XmRecv × List UInt8) : Prop :=
  XmInv cfg file (x.setRecv cfg file r.1 cur items r.2) items

/-- Between two messages, what a receiver with CRC gets has been asked for. -/
def XmState.Asked (x : XmState) : Prop := x.recv.usecrc = true → x.send.usecrc = true

theorem XmState.Asked.mode {x' : XmState} (hask : x.Asked) (hu : x.recv.usecrc = true) :
    x.send.usecrc = true ∨ XmFresh x' items :=
  .inl (hask hu)

section
variable (h : XmInv cfg file x items) (hsub : items'.Sublist items)
include h hsub

/-- A step of the receiver that leaves its counters and what it has written as they are. -/
theorem XmInv.keepRecv {recv : XmRecv} {sent : List UInt8}
    (hrecv : recv.blocknr = x.recv.blocknr ∧ recv.lastBlockDone = x.recv.lastBlockDone ∧ recv.dest = x.recv.dest)
    (hcrc : recv.usecrc = true → x.recv.usecrc = true)
    (hsent : sent.count xmAck + (if x.recv.result = some true then 1 else 0) ≤ if recv.result = some true then 1 else 0)
    (hmode : recv.usecrc = true → x.send.usecrc = true ∨ XmFresh (x.setRecv cfg file recv cur items' sent) items')
    (hpurge : recv.pc ≠ .loop → recv.purge = false)
    (hread : recv.result = none → ReadingOk cfg file (x.setRecv cfg file recv cur items' sent) items' recv.pc) :
    RecvOk cfg file x cur items' (recv, sent) := by
  obtain ⟨hnr, hlast, hdest⟩ := hrecv
  refine { h with
    channel := rfl
    sorted := h.sorted.sublist hsub
    blocks := fun m u hm => (h.blocks m u (hsub.subset hm)).mono hnr (Nat.le_refl _) hcrc
    recv_le := hnr ▸ h.recv_le
    acks := ?_
    blocknr := ?_
    dest := ?_
    mode := hmode
    purge := hpurge
    reading := hread }
  · have hacks := h.acks
    show x.send.blocknr + (x.toSend ++ sent).count xmAck + (if x.send.result = some true then 1 else 0) ≤
      recv.lastBlockDone + 1 + (if recv.result = some true then 1 else 0)
    rw [count_append]
    omega
  · show recv.lastBlockDone = recv.blocknr ∨ recv.lastBlockDone + 1 = recv.blocknr
    rw [hlast, hnr]
    exact h.blocknr
  · show recv.dest = _
    rw [hdest, h.dest]
    exact congrArg (fun k => (xmPadded cfg file).take (k * cfg.bufsize)) hlast.symm

theorem XmInv.quiet (hask : x.Asked) {recv : XmRecv} (hrecv : recv = { x.recv with pc := recv.pc, purge := recv.purge })
    (hpurge : recv.pc ≠ .loop → recv.purge = false)
    (hread : ReadingOk cfg file (x.setRecv cfg file recv cur items' []) items' recv.pc) :
    RecvOk cfg file x cur items' (recv, []) := by
  have hres : recv.result = x.recv.result := by rw [hrecv]
  have hcrc : recv.usecrc = x.recv.usecrc := by rw [hrecv]
  refine h.keepRecv hsub ?_ (fun hu => hcrc ▸ hu) ?_ (fun hu => hask.mode (hcrc ▸ hu)) hpurge fun _ => hread
  · rw [hrecv]
    exact ⟨rfl, rfl, rfl⟩
  · exact Nat.le_of_eq (by rw [hres, count_nil, Nat.zero_add])

theorem XmInv.toPurge (hask : x.Asked) (cur : List UInt8) : RecvOk cfg file x cur items' (x.recv.toPurge, []) :=
  h.quiet hsub hask rfl (fun hp => absurd rfl hp) (.inl rfl)

theorem XmInv.recvEot (hask : x.Asked) (hres : x.recv.result = none) (hpurge : x.recv.pc ≠ .loop → x.recv.purge = false)
    (cur : List UInt8) : RecvOk cfg file x cur items' ({ x.recv with result := some true }, [xmAck]) := by
  refine h.keepRecv hsub ⟨rfl, rfl, rfl⟩ (fun hu => hu) ?_ hask.mode hpurge fun hr => by cases hr
  rw [hres]
  exact (by decide : [xmAck].count xmAck + (if (none : Option Bool) = some true then 1 else 0) ≤ 1)

end

/-- **A good block** is written and acknowledged once. -/
theorem XmInv.accept (h : XmInv cfg file x items) (hask : x.Asked) (hcur : cur = [] ∨ ∃ b, cur = [b]) :
    RecvOk cfg file x cur items (x.recv.accept (xmBlock cfg file (x.recv.blocknr - 1))) := by
  unfold XmRecv.accept
  by_cases hlt : x.recv.lastBlockDone < x.recv.blocknr
  · rw [if_pos hlt]
    have hnr : x.recv.lastBlockDone + 1 = x.recv.blocknr := by
      have := h.blocknr
      omega
    refine { h with
      channel := rfl
      blocks := fun m u hm => (h.blocks m u hm).mono rfl (Nat.le_refl _) fun hu => hu
      acks := ?_
      blocknr := .inl rfl
      dest := ?_
      mode := hask.mode
      purge := fun hpc => absurd rfl hpc
      reading := fun _ => .inr hcur }
    · have hacks := h.acks
      show x.send.blocknr + (x.toSend ++ [xmAck]).count xmAck + (if x.send.result = some true then 1 else 0) ≤
        x.recv.blocknr + 1 + (if x.recv.result = some true then 1 else 0)
      rw [count_append, count_singleton_self]
      omega
    · show x.recv.dest ++ xmBlock cfg file (x.recv.blocknr - 1) = (xmPadded cfg file).take
        (x.recv.blocknr * cfg.bufsize)
      rw [h.dest, ← hnr, Nat.add_sub_cancel, take_append_xmBlock]
  · rw [if_neg hlt]
    exact h.quiet (List.Sublist.refl _) hask rfl (fun hpc => absurd rfl hpc) (.inr hcur)

/-- A block in the channel is the last one that the receiver has seen or the next one. -/
theorem XmInv.pending_cases (h : XmInv cfg file x items) (hres : x.recv.result = none) {m : ℕ} {u : Bool}
    (hp : Sendable cfg file x m u) :
    m = x.recv.blocknr ∨ m = x.recv.blocknr + 1 ∧ x.recv.lastBlockDone = x.recv.blocknr := by
  have hacks := h.acks
  rw [hres, if_neg (by decide : ¬ (none : Option Bool) = some true)] at hacks
  have hnr := h.blocknr
  have hle := hp.le_send
  have hge := hp.recv_le
  omega

theorem ofNat_succ_ne (n : ℕ) : UInt8.ofNat (n + 1) ≠ UInt8.ofNat n := by
  intro h
  have h' := congrArg toNat h
  rw [toNat_ofNat', toNat_ofNat'] at h'
  omega

/-- The header of a pending block keeps the invariant. -/
theorem XmInv.header (h : XmInv cfg file x items) (hask : x.Asked) (hres : x.recv.result = none)
    (hpurge : x.recv.purge = false) {m : ℕ} {u : Bool} (hp : Pending cfg file x items m u) :
    RecvOk cfg file x (blockTail cfg file m u) items
      (x.recv.header cfg.bufsize (some (UInt8.ofNat m)) (some (~~~UInt8.ofNat m)), []) := by
  have hsize := cfg.bufsize_pos
  have hlen := @length_xmBlock cfg file (m - 1) (by have := hp.sendable.pos; have := hp.sendable.le; omega)
  have hne : xmBlock cfg file (m - 1) ≠ [] := fun h0 => by
    rw [h0, length_nil] at hlen
    omega
  unfold XmRecv.header
  rw [if_neg (fun h => h rfl)]
  obtain rfl | ⟨rfl, hlast⟩ := h.pending_cases hres hp.sendable
  · rw [if_pos rfl]
    refine h.quiet (List.Sublist.refl _) hask rfl (fun _ => hpurge) ⟨u, _, ?_, rfl, hne, rfl, rfl⟩
    exact ⟨hp.sendable.mono rfl (Nat.le_refl _) fun hu => hu, hp.first⟩
  · rw [if_neg (fun he => ofNat_succ_ne x.recv.blocknr (some.inj he)), if_pos rfl]
    have hS : ∀ m' u', Sendable cfg file x m' u' → x.recv.blocknr + 1 ≤ m' → Sendable cfg file (x.setRecv cfg file
        { x.recv with blocknr := x.recv.blocknr + 1, pc := .data cfg.bufsize [] 0 0 }
        (blockTail cfg file (x.recv.blocknr + 1) u) items []) m' u' :=
      fun m' u' hs hle => { hs with recv_le := hle }
    refine { h with
      channel := rfl
      blocks := fun m' u' hm => hS m' u' (h.blocks m' u' hm) (hp.first m' u' hm)
      recv_le := hp.sendable.le_send
      acks := ?_
      blocknr := .inr (congrArg (· + 1) hlast)
      mode := hask.mode
      purge := fun _ => hpurge
      reading := fun _ => ⟨u, _, ⟨hS _ u hp.sendable (Nat.le_refl _), hp.first⟩, rfl, hne, rfl, rfl⟩ }
    show x.send.blocknr + (x.toSend ++ []).count xmAck + _ ≤ _
    rw [append_nil]
    exact h.acks

theorem Pending.setRecv {m : ℕ} {u : Bool} (hp : Pending cfg file x items m u) (pc : XmPc) (purge : Bool)
    (cur sent : List UInt8) : Pending cfg file
      (x.setRecv cfg file { x.recv with pc := pc, purge := purge } cur items sent) items m u :=
  ⟨hp.sendable.mono rfl (Nat.le_refl _) fun hu => hu, hp.first⟩

/-- Where the next byte comes from: the message that is being read, or the next one. -/
inductive NextByte (cfg : XmConfig) (file : List UInt8) (x : XmState) :
    List XmItem → UInt8 → List UInt8 → List XmItem → Prop
  | inside {items : List XmItem} {b : UInt8} {cur : List UInt8} (hcur : x.cur = b :: cur) :
      NextByte cfg file x items b cur items
  | eot {items : List XmItem} (hcur : x.cur = []) : NextByte cfg file x (.eot :: items) xmEot [] items
  | block {items : List XmItem} {m : ℕ} {u : Bool} (hcur : x.cur = []) (hp : Pending cfg file x items m u) :
      NextByte cfg file x (.block m u :: items) cfg.header
        (UInt8.ofNat m :: ~~~UInt8.ofNat m :: blockTail cfg file m u) items

variable {b : UInt8}

/-- The next byte is one of the message in flight or of the next. -/
theorem XmInv.nextByte (h : XmInv cfg file x items) {msgs : List (List UInt8)}
    (hn : Bertos.nextByte x.cur x.toRecv = some (b, cur, msgs)) :
    ∃ items', NextByte cfg file x items b cur items' ∧ msgs = items'.map (XmItem.encode cfg file) := by
  cases hcur : x.cur with
  | cons b' cur' =>
    rw [hcur] at hn
    obtain ⟨rfl, rfl, rfl⟩ : b' = b ∧ cur' = cur ∧ x.toRecv = msgs := by
      simpa [Bertos.nextByte] using hn
    exact ⟨items, .inside hcur, h.channel⟩
  | nil =>
    rw [hcur, h.channel] at hn
    cases items with
    | nil => cases hn
    | cons item items =>
      have hsorted := pairwise_cons.mp h.sorted
      cases item with
      | eot =>
        obtain ⟨rfl, rfl, rfl⟩ : xmEot = b ∧ [] = cur ∧ items.map (XmItem.encode cfg file) = msgs := by
          simpa [Bertos.nextByte, XmItem.encode] using hn
        exact ⟨items, .eot hcur, rfl⟩
      | block m u =>
        obtain ⟨rfl, rfl, rfl⟩ : cfg.header = b ∧ ofNat m :: ~~~ofNat m :: blockTail cfg file m u = cur ∧
            items.map (XmItem.encode cfg file) = msgs := by
          simpa [Bertos.nextByte, XmItem.encode, blockMessage, blockTail] using hn
        exact ⟨items, .block hcur ⟨h.blocks m u mem_cons_self, fun m' u' hm => hsorted.1 _ hm⟩, rfl⟩

theorem NextByte.sublist (h : NextByte cfg file x items b cur items') : items'.Sublist items := by
  cases h with
  | inside => exact List.Sublist.refl _
  | eot | block => exact sublist_cons_self _ _

theorem NextByte.of_cons {c : UInt8} {cur' : List UInt8} (h : NextByte cfg file x items b cur items')
    (hcur : x.cur = c :: cur') : b = c ∧ cur = cur' ∧ items' = items := by
  cases h with
  | inside hcur' =>
    obtain ⟨rfl, rfl⟩ := cons.inj (hcur'.symm.trans hcur)
    exact ⟨rfl, rfl, rfl⟩
  | eot hcur' | block hcur' => exact absurd (hcur'.symm.trans hcur) (cons_ne_nil _ _).symm

theorem NextByte.of_nil (h : NextByte cfg file x items b cur items') (hcur : x.cur = []) :
    b = xmEot ∧ cur = [] ∨ b = cfg.header ∧ ∃ m u, Pending cfg file x items' m u ∧
      cur = UInt8.ofNat m :: ~~~UInt8.ofNat m :: blockTail cfg file m u := by
  cases h with
  | inside hcur' => exact absurd (hcur.symm.trans hcur') (cons_ne_nil _ _).symm
  | eot => exact .inl ⟨rfl, rfl⟩
  | block _ hp => exact .inr ⟨rfl, _, _, hp, rfl⟩

/-- The beginning of a message is not the complement of a byte that is taken for a block number. -/
theorem header_toPurge (r : XmRecv) (blocksize : ℕ) {c c' : Option UInt8} (hc : c = none ∨ c = some xmEot)
    (hc' : c' = none ∨ c' = some xmEot ∨ c' = some cfg.header) : r.header blocksize c c' = r.toPurge := by
  have hhead : cfg.header = xmStx ∨ cfg.header = xmSoh := by
    unfold XmConfig.header
    split
    · exact .inl rfl
    · exact .inr rfl
  refine if_pos fun he => ?_
  obtain rfl | rfl | rfl := hc'
  · cases he
  · obtain rfl | rfl := hc <;> exact absurd he (by decide)
  · obtain rfl | rfl := hc <;> obtain hh | hh := hhead <;> rw [hh] at he <;> exact absurd he (by decide)

/-- A byte that begins a message is not the number of a block near the one whose number is its complement. -/
theorem XmInv.header_stray (h : XmInv cfg file x items) (hres : x.recv.result = none) (blocksize : ℕ) {m : ℕ} {u : Bool}
    (hp : Pending cfg file x items' m u) :
    x.recv.header blocksize (some cfg.header) (some (UInt8.ofNat m)) = x.recv.toPurge := by
  have hhead : cfg.header.toNat = 1 ∨ cfg.header.toNat = 2 := by
    unfold XmConfig.header
    split
    · exact .inr rfl
    · exact .inl rfl
  unfold XmRecv.header
  split
  · rfl
  · next hcompl =>
    have he : ~~~cfg.header = ofNat m := some.inj (Classical.not_not.mp hcompl)
    have hm : m % 256 = 255 - cfg.header.toNat := by
      have := congrArg toNat he
      simp only [UInt8.toNat_not, UInt8.toNat_ofNat', UInt8.size] at this
      omega
    have hnear := h.pending_cases hres hp.sendable
    have hne : ∀ n, n % 256 ≠ cfg.header.toNat → some cfg.header ≠ some (ofNat n) := by
      intro n hn hs
      have := congrArg UInt8.toNat (some.inj hs)
      rw [toNat_ofNat'] at this
      omega
    rw [if_neg (hne _ (by omega)), if_neg (hne _ (by omega))]

theorem XmInv.readingAt (h : XmInv cfg file x items) (hw : x.recv.Waits) {pc : XmPc} (hpc : x.recv.pc = pc) :
    ReadingOk cfg file x items pc :=
  hpc ▸ h.reading hw.1

section Byte

variable {b : UInt8} (h : XmInv cfg file x items) (hask : x.Asked) (hw : x.recv.Waits)
  (hn : NextByte cfg file x items b cur items')
include h hask hw hn

/-- A byte that is not at the beginning of the message can only be the last one. -/
theorem XmInv.recvLoop (hpc : x.recv.pc = .loop) :
    RecvOk cfg file x cur items' (Bertos.recvGot cfg x.recv (some b)) := by
  have hread := h.readingAt hw hpc
  have hstray : x.cur = b :: cur → cur = [] := by
    intro hcur
    obtain hp | hp | ⟨b', hp⟩ := hread
    · exact absurd (hw.2.symm.trans hp) Bool.false_ne_true
    · exact absurd (hp.symm.trans hcur) (cons_ne_nil _ _).symm
    · exact (cons.inj (hcur.symm.trans hp)).2
  have hnumber : ∀ blocksize, (b = cfg.header → blocksize = cfg.bufsize) → b ≠ xmEot →
      RecvOk cfg file x cur items' ({ x.recv with pc := .number blocksize }, []) := by
    intro blocksize hsize hb
    refine h.quiet hn.sublist hask rfl (fun _ => hw.2) ?_
    cases hn with
    | inside hcur => exact .inr (hstray hcur)
    | eot => exact absurd rfl hb
    | block _ hp => exact .inl ⟨_, _, hp.setRecv .., hsize rfl, rfl⟩
  unfold Bertos.recvGot
  simp only [hpc]
  split
  · next hb =>
    refine hnumber 1024 (fun _ => ?_) (hb.2 ▸ by decide)
    rw [XmConfig.bufsize, if_pos hb.1]
  split
  · next hb hsoh =>
    refine hnumber 128 (fun he => ?_) (hsoh ▸ by decide)
    have hk : ¬ cfg.oneK = true := fun hk => by
      rw [XmConfig.header, if_pos hk] at he
      exact absurd (he.symm.trans hsoh) (by decide)
    rw [XmConfig.bufsize, if_neg hk]
  split
  · simpa only [hpc] using h.recvEot hn.sublist hask hw.1 (fun _ => hw.2) cur
  · exact h.toPurge hn.sublist hask cur

theorem XmInv.recvNumber {blocksize : ℕ} (hpc : x.recv.pc = .number blocksize) :
    RecvOk cfg file x cur items' ({ x.recv with pc := .complement blocksize (some b) }, []) := by
  refine h.quiet hn.sublist hask rfl (fun _ => hw.2) ?_
  obtain ⟨m, u, hp, hsize, hcur⟩ | hcur := h.readingAt hw hpc
  · obtain ⟨rfl, rfl, rfl⟩ := hn.of_cons hcur
    exact .inl ⟨m, u, hp.setRecv .., hsize, rfl, rfl⟩
  · obtain ⟨rfl, rfl⟩ | ⟨rfl, m, u, hp, rfl⟩ := hn.of_nil hcur
    · exact .inr (.inl ⟨.inr rfl, rfl⟩)
    · exact .inr (.inr ⟨m, u, hp.setRecv .., rfl, rfl⟩)

theorem XmInv.recvComplement {blocksize : ℕ} {c : Option UInt8} (hpc : x.recv.pc = .complement blocksize c) :
    RecvOk cfg file x cur items' (x.recv.header blocksize c (some b), []) := by
  obtain ⟨m, u, hp, rfl, rfl, hcur⟩ | ⟨hc, hcur⟩ | ⟨m, u, hp, rfl, hcur⟩ := h.readingAt hw hpc
  · obtain ⟨rfl, rfl, rfl⟩ := hn.of_cons hcur
    exact h.header hask hw.1 hw.2 hp
  · have hb : b = xmEot ∨ b = cfg.header := (hn.of_nil hcur).imp And.left And.left
    rw [@header_toPurge cfg _ _ _ _ hc (.inr (hb.imp (congrArg some) (congrArg some)))]
    exact h.toPurge hn.sublist hask _
  · obtain ⟨rfl, rfl, rfl⟩ := hn.of_cons hcur
    rw [h.header_stray hw.1 blocksize hp]
    exact h.toPurge hn.sublist hask _

/-- A byte of the data keeps the invariant, -/
theorem XmInv.recvData {blocksize : ℕ} {buf : List UInt8} {crc : UInt16} {checksum : UInt8}
    (hpc : x.recv.pc = .data blocksize buf crc checksum) :
    RecvOk cfg file x cur items' (Bertos.recvGot cfg x.recv (some b)) := by
  obtain ⟨u, rest, hp, rfl, hrest, hbuf, hcur⟩ := h.readingAt hw hpc
  obtain ⟨c, rest, rfl⟩ := exists_cons_of_ne_nil hrest
  obtain ⟨rfl, rfl, rfl⟩ := hn.of_cons hcur
  have hbuf' : (buf ++ [b]) ++ rest = xmBlock cfg file (x.recv.blocknr - 1) := by
    rw [← hbuf, append_assoc, singleton_append]
  have hlen : (buf ++ [b]).length + rest.length = cfg.bufsize := by
    rw [← length_append, hbuf', length_xmBlock]
    have := hp.sendable.pos
    have := hp.sendable.le
    omega
  unfold Bertos.recvGot
  simp only [hpc]
  split
  · next hlt =>
    refine h.quiet hn.sublist hask rfl (fun _ => hw.2) ⟨u, rest, hp.setRecv .., rfl, fun h0 => ?_, hbuf', rfl⟩
    rw [h0, length_nil] at hlen
    omega
  · next hge =>
    have h0 : rest = [] := eq_nil_of_length_eq_zero (by omega)
    subst h0
    rw [append_nil] at hbuf'
    exact h.quiet hn.sublist hask rfl (fun _ => hw.2) ⟨u, hp.setRecv .., hbuf', rfl⟩

/-- and so does a byte of the check. -/
theorem XmInv.recvCheck {buf : List UInt8} {crc : UInt16} {checksum : UInt8}
    (hpc : x.recv.pc = .check buf crc checksum) :
    RecvOk cfg file x cur items' (Bertos.recvGot cfg x.recv (some b)) := by
  obtain ⟨u, hp, rfl, hcur⟩ := h.readingAt hw hpc
  unfold Bertos.recvGot
  simp only [hpc]
  split
  · next hu =>
    rw [hp.sendable.crc hu] at hcur
    obtain ⟨rfl, rfl, rfl⟩ := hn.of_cons hcur
    exact h.quiet hn.sublist hask rfl (fun _ => hw.2) ⟨u, _, hp.setRecv .., rfl, rfl⟩
  · split
    · exact h.toPurge hn.sublist hask _
    · cases u with
      | true =>
        obtain ⟨rfl, rfl, rfl⟩ := hn.of_cons hcur
        exact h.accept hask (.inr ⟨_, rfl⟩)
      | false =>
        obtain ⟨rfl, rfl, rfl⟩ := hn.of_cons hcur
        exact h.accept hask (.inl rfl)

theorem XmInv.recvCrcLsb {buf : List UInt8} {crc : UInt16} (hpc : x.recv.pc = .crcLsb buf crc) :
    RecvOk cfg file x cur items' (Bertos.recvGot cfg x.recv (some b)) := by
  obtain ⟨u, c, hp, rfl, hcur⟩ := h.readingAt hw hpc
  obtain ⟨rfl, rfl, rfl⟩ := hn.of_cons hcur
  unfold Bertos.recvGot
  simp only [hpc]
  split
  · exact h.toPurge hn.sublist hask _
  · exact h.accept hask (.inl rfl)

end Byte

section
variable (h : XmInv cfg file x items)
include h

theorem XmInv.asked_of_next (hn : NextByte cfg file x items b cur items') : x.Asked := by
  intro hu
  refine (h.mode hu).resolve_right fun hf => ?_
  have hitems := hf.items
  cases hn with
  | inside hcur => exact absurd (hf.cur.symm.trans hcur) (cons_ne_nil _ _).symm
  | eot | block => cases hitems

theorem XmInv.asked_of_pc (hpc : x.recv.pc ≠ .loop) : x.Asked :=
  fun hu => (h.mode hu).resolve_right fun hf => hpc hf.pc

/-- **The receiver** keeps the invariant when it gets a byte. -/
theorem XmInv.recvGet (hw : x.recv.Waits) {msgs : List (List UInt8)}
    (hn : Bertos.nextByte x.cur x.toRecv = some (b, cur, msgs)) :
    ∃ items', XmInv cfg file ({ x with cur := cur, toRecv := msgs }.recvGot cfg (some b)) items' := by
  obtain ⟨items', hb, rfl⟩ := h.nextByte hn
  have hask := h.asked_of_next hb
  refine ⟨items', ?_⟩
  show RecvOk cfg file x cur items' (Bertos.recvGot cfg x.recv (some b))
  cases hpc : x.recv.pc with
  | loop => exact h.recvLoop hask hw hb hpc
  | number blocksize =>
    simp only [Bertos.recvGot, hpc]
    exact h.recvNumber hask hw hb hpc
  | complement blocksize c =>
    simp only [Bertos.recvGot, hpc]
    exact h.recvComplement hask hw hb hpc
  | data => exact h.recvData hask hw hb hpc
  | check => exact h.recvCheck hask hw hb hpc
  | crcLsb => exact h.recvCrcLsb hask hw hb hpc

theorem XmInv.eq_setRecv (recv : XmRecv) (sent : List UInt8) :
    { x with recv := recv, toSend := x.toSend ++ sent } = x.setRecv cfg file recv x.cur items sent := by
  rw [XmState.setRecv, ← h.channel]

/-- A timeout keeps it. -/
theorem XmInv.recvTimeout (hw : x.recv.Waits) (hcur : x.cur = []) : XmInv cfg file (x.recvGot cfg none) items := by
  unfold XmState.recvGot
  rw [h.eq_setRecv]
  by_cases hpc : x.recv.pc = .loop
  · have hfresh : XmFresh x items → XmFresh (x.setRecv cfg file x.recv.toPurge x.cur items []) items :=
      fun hf => ⟨hf.items, hf.cur, rfl, hf.blocknr, fun c hc => hf.toSend c (by rwa [← append_nil x.toSend])⟩
    simp only [Bertos.recvGot, hpc]
    exact h.keepRecv (List.Sublist.refl _) ⟨rfl, rfl, rfl⟩ (fun hu => hu) (Nat.le_of_eq (Nat.zero_add _))
      (fun hu => (h.mode hu).imp_right hfresh) (fun hp => absurd rfl hp) fun _ => .inl rfl
  · have hask := h.asked_of_pc hpc
    have hpurge := h.toPurge (List.Sublist.refl _) hask x.cur
    cases hpc' : x.recv.pc with
    | loop => exact absurd hpc' hpc
    | number blocksize =>
      simp only [Bertos.recvGot, hpc']
      exact h.quiet (List.Sublist.refl _) hask rfl (fun _ => hw.2) (.inr (.inl ⟨.inl rfl, hcur⟩))
    | complement blocksize c =>
      simp only [Bertos.recvGot, hpc', XmRecv.header]
      exact hpurge
    | data | check | crcLsb => simpa only [Bertos.recvGot, hpc'] using hpurge

/-- A step of the loop that does not read, by which the receiver may give up. -/
theorem XmInv.retry (hsub : items'.Sublist items) (hres : x.recv.result = none) {recv : XmRecv} {sent : List UInt8}
    (hsent : xmAck ∉ sent)
    (hrecv : recv.blocknr = x.recv.blocknr ∧ recv.lastBlockDone = x.recv.lastBlockDone ∧ recv.dest = x.recv.dest)
    (hcrc : recv.usecrc = true → x.recv.usecrc = true) (hpc' : recv.pc = .loop)
    (hmode : recv.usecrc = true → x.send.usecrc = true ∨ XmFresh (x.setRecv cfg file recv cur items' sent) items')
    (hcur : recv.result = none → cur = []) : RecvOk cfg file x cur items' (recv, sent) := by
  refine h.keepRecv hsub hrecv hcrc ?_ hmode (fun hp => absurd hpc' hp) fun hr => ?_
  · rw [hres, count_eq_zero_of_not_mem hsent]
    exact zero_le _
  · rw [hpc']
    exact .inr (.inl (hcur hr))

end

theorem xmAck_not_mem : xmAck ∉ [xmCan, xmCan] ∧ xmAck ∉ [xmC] ∧ xmAck ∉ [xmNak] := by
  decide

/-- **After `kfile_resync`** the receiver asks for a block, or gives up. -/
theorem XmInv.recvPurge (h : XmInv cfg file x items) (hp : x.recv.Purges) (discarded : ℕ) :
    RecvOk cfg file x [] (items.drop discarded) (Bertos.recvPurge cfg x.recv) := by
  have hpc : x.recv.pc = .loop :=
    Classical.not_not.mp fun hpc => absurd ((h.purge hpc).symm.trans hp.2) Bool.false_ne_true
  have hsub : (items.drop discarded).Sublist items := drop_sublist _ _
  have hfresh : ∀ (recv : XmRecv) (sent : List UInt8), recv.pc = .loop → recv.blocknr = x.recv.blocknr →
      (∀ c ∈ sent, c = xmC ∨ c = xmCan) → XmFresh x items →
      XmFresh (x.setRecv cfg file recv [] (items.drop discarded) sent) (items.drop discarded) := by
    intro recv sent hpc' hnr hsent hf
    refine ⟨?_, rfl, hpc', hnr.trans hf.blocknr, fun c hc => ?_⟩
    · rw [hf.items, drop_nil]
    · obtain hc | hc := mem_append.mp hc
      · exact hf.toSend c hc
      · exact hsent c hc
  unfold Bertos.recvPurge
  dsimp only
  split
  · exact h.retry hsub hp.1 xmAck_not_mem.1 ⟨rfl, rfl, rfl⟩ (fun hu => hu) hpc
      (fun hu => (h.mode hu).imp_right (hfresh _ _ hpc rfl (by simp))) fun _ => rfl
  split
  · split
    · exact h.retry hsub hp.1 xmAck_not_mem.2.1 ⟨rfl, rfl, rfl⟩ (fun hu => hu) hpc
        (fun hu => (h.mode hu).imp_right (hfresh _ _ hpc rfl (by simp))) fun _ => rfl
    · exact h.retry hsub hp.1 xmAck_not_mem.2.2 ⟨rfl, rfl, rfl⟩ (fun hu => by cases hu) hpc (fun hu => by cases hu)
        fun _ => rfl
  · next hnr =>
    exact h.retry hsub hp.1 xmAck_not_mem.2.2 ⟨rfl, rfl, rfl⟩ (fun hu => hu) hpc
      (fun hu => .inl ((h.mode hu).resolve_right fun hf => hnr hf.blocknr)) fun _ => rfl

theorem XmInv.recvAbort (h : XmInv cfg file x items) (hl : x.recv.AtLoop = true) :
    XmInv cfg file { x with recv := { x.recv with result := some false }, toSend := x.toSend ++ [xmCan, xmCan] }
      items := by
  obtain ⟨hpc, hres⟩ : x.recv.pc = .loop ∧ x.recv.result = none := by
    unfold XmRecv.AtLoop at hl
    split at hl
    · next hpc => exact ⟨hpc, isNone_iff_eq_none.mp hl⟩
    · cases hl
  rw [h.eq_setRecv]
  refine h.retry (List.Sublist.refl _) hres xmAck_not_mem.1 ⟨rfl, rfl, rfl⟩ (fun hu => hu) hpc (fun hu => ?_)
    fun hr => by cases hr
  refine (h.mode hu).imp_right fun hf => ⟨hf.items, hf.cur, hpc, hf.blocknr, fun c hc => ?_⟩
  obtain hc | hc := mem_append.mp hc
  · exact hf.toSend c hc
  · exact .inr (by simpa using hc)

end Recv

/-! ## Runs -/

section Runs

variable {cfg : XmConfig} {file : List UInt8} {x x' : XmState} {items : List XmItem}

/-- A message may be lost. -/
theorem XmInv.loseToRecv (h : XmInv cfg file x items) (i : ℕ) :
    XmInv cfg file { x with toRecv := x.toRecv.eraseIdx i } (items.eraseIdx i) := by
  have hsub : (items.eraseIdx i).Sublist items := eraseIdx_sublist items i
  have hS : ∀ m u, Sendable cfg file x m u → Sendable cfg file { x with toRecv := x.toRecv.eraseIdx i } m u :=
    fun m u hs => hs.mono rfl (Nat.le_refl _) fun hu => hu
  refine { h with
    channel := ?_
    sorted := h.sorted.sublist hsub
    blocks := fun m u hm => hS m u (h.blocks m u (hsub.subset hm))
    mode := fun hu => (h.mode hu).imp_right fun hf => ⟨?_, hf.cur, hf.pc, hf.blocknr, hf.toSend⟩
    reading := fun hr => ?_ }
  · rw [h.channel, eraseIdx_map]
  · rw [hf.items, eraseIdx_nil]
  · exact (h.reading hr).mono (fun m u hp => ⟨hS m u hp.sendable, fun m' u' hm => hp.first m' u' (hsub.subset hm)⟩)
      rfl rfl
      fun hp => hp

theorem XmInv.loseToSend (h : XmInv cfg file x items) (i : ℕ) :
    XmInv cfg file { x with toSend := x.toSend.eraseIdx i } items := by
  have hsub : (x.toSend.eraseIdx i).Sublist x.toSend := eraseIdx_sublist x.toSend i
  have hacks := h.acks
  have hcount := hsub.count_le xmAck
  refine h.setSend h.sender (Nat.le_refl _) (by omega) (fun hu => ?_) h.done
  exact (h.mode hu).imp_right fun hf => { hf with toSend := fun c hc => hf.toSend c (hsub.subset hc) }

/-- **Every step** keeps the invariant. -/
theorem XmInv.step (h : XmInv cfg file x items) {a : XmAct} {out : List Unit}
    (hstep : xmStep cfg x a = some (x', out)) : ∃ items', XmInv cfg file x' items' := by
  cases a with
  | sendGet =>
    simp only [xmStep] at hstep
    split at hstep
    · next c cs hcs =>
      obtain ⟨hres, he⟩ := ite_none_right_eq_some.mp hstep
      cases he
      exact h.sendGot hcs hres
    · cases hstep
  | sendTimeout =>
    obtain ⟨hres, he⟩ := ite_none_right_eq_some.mp hstep
    cases he
    refine ⟨items, ?_⟩
    unfold XmState.sendGot Bertos.sendGot
    dsimp only
    split
    · exact h.sendFails _ (by rw [hres]; decide)
    · exact h.sendFails _ (by decide)
  | sendAbort =>
    obtain ⟨-, he⟩ := ite_none_right_eq_some.mp hstep
    cases he
    exact ⟨items, h.sendFails _ (by decide)⟩
  | recvGet =>
    obtain ⟨hw, hmap⟩ := ite_none_right_eq_some.mp hstep
    obtain ⟨⟨b, cur, msgs⟩, hn, he⟩ := map_eq_some_iff.mp hmap
    cases he
    exact h.recvGet hw hn
  | recvTimeout =>
    obtain ⟨hw, he⟩ := ite_none_right_eq_some.mp hstep
    cases he
    exact ⟨items, h.recvTimeout hw.1 hw.2⟩
  | recvPurge discarded =>
    obtain ⟨hp, he⟩ := ite_none_right_eq_some.mp hstep
    cases he
    refine ⟨items.drop discarded, ?_⟩
    rw [h.channel, ← map_drop]
    exact h.recvPurge hp discarded
  | recvAbort =>
    obtain ⟨hl, he⟩ := ite_none_right_eq_some.mp hstep
    cases he
    exact ⟨items, h.recvAbort hl⟩
  | loseToRecv i =>
    cases hstep
    exact ⟨items.eraseIdx i, h.loseToRecv i⟩
  | loseToSend i =>
    cases hstep
    exact ⟨items, h.loseToSend i⟩

theorem xmInv_init : XmInv cfg file ⟨xmSendInit cfg file, xmRecvInit, [], [], []⟩ [] where
  channel := rfl
  sorted := List.Pairwise.nil
  blocks := by simp
  sender := ⟨Nat.le_refl _, Nat.le_add_left 1 _, by simp [xmSendInit, XmSend.readBlock],
    by simp [xmSendInit, XmSend.readBlock]⟩
  recv_le := Nat.zero_le _
  acks := Nat.le_refl _
  blocknr := .inl rfl
  dest := by simp [xmRecvInit]
  mode := fun _ => .inr ⟨rfl, rfl, rfl, rfl, by simp⟩
  purge := fun hpc => absurd rfl hpc
  reading := fun _ => .inl rfl
  done := fun hr => by cases hr

/-- **The invariant**, along every run. -/
theorem xmInv_run {log : List Unit} (h : (xmMachine cfg file).Run (fun _ _ => True) x log) :
    ∃ items, XmInv cfg file x items := by
  refine h.invariant (I := fun x _ => ∃ items, XmInv cfg file x items) ?_ ?_
  · rintro x rfl
    exact ⟨[], xmInv_init⟩
  · rintro x _ a x' out ⟨items, hi⟩ - hstep
    exact hi.step hstep

end Runs

/-- **A transfer that both ends call successful is exact**, and the destination always holds a prefix of
the padded file. -/
theorem xmodem_exact (cfg : XmConfig) (file : List UInt8) {x : XmState} {log : List Unit}
    (h : (xmMachine cfg file).Run (fun _ _ => True) x log) :
    x.recv.dest <+: xmPadded cfg file ∧
      (x.send.result = some true → x.recv.result = some true → x.recv.dest = xmPadded cfg file) := by
  obtain ⟨items, hi⟩ := xmInv_run h
  rw [hi.dest]
  refine ⟨List.take_prefix _ _, fun hs hr => take_of_length_le ?_⟩
  -- the end has been acknowledged once, so all the other acknowledgements were of blocks
  have hacks := hi.acks
  have hdone := hi.done hs
  rw [if_pos hs, if_pos hr] at hacks
  rw [length_xmPadded]
  exact mul_le_mul_right _ (by omega)

/-- The hypotheses hold: a file of one byte, after the loss of a request and a repeated one. -/
theorem xmodem_exact_byte : ∃ (x : XmState) (log : List Unit),
    (xmMachine ⟨false, 25, 7⟩ [1]).Run (fun _ _ => True) x log ∧ x.send.result = some true ∧ x.recv.result = some true ∧
      x.recv.dest = xmPadded ⟨false, 25, 7⟩ [1] := by
  have hex : ((xmMachine ⟨false, 25, 7⟩ [1]).exec (fun _ _ => True)
    ⟨xmSendInit ⟨false, 25, 7⟩ [1], xmRecvInit, [], [], []⟩ []
      ([.recvPurge 0, .loseToSend 0, .recvTimeout, .recvPurge 0, .sendGet] ++ replicate 133 .recvGet ++
        [.sendGet, .recvGet, .sendGet])).any (fun r => r.1.send.result = some true ∧ r.1.recv.result = some true) =
          true := by
    decide +kernel
  obtain ⟨r, hr, hok⟩ := (any_eq_true _ _).mp hex
  have hrun := Machine.Run.exec (Machine.Run.init rfl) hr
  obtain ⟨hs, hrecv⟩ := of_decide_eq_true hok
  exact ⟨r.1, r.2, hrun, hs, hrecv, (xmodem_exact _ _ hrun).2 hs hrecv⟩

/-! ## Copies of a block -/

/-- The block that is good with this last byte: its checksum, or the low byte of its CRC. -/
def XmRecv.goodBlock (r : XmRecv) (b : UInt8) : Option (List UInt8) :=
  match r.pc with
  | .check buf _ checksum => if r.usecrc = false ∧ b = checksum then some buf else none
  | .crcLsb buf crc => if updcrc16 b crc = 0 then some buf else none
  | _ => none

/-- A good block is written and acknowledged unless `last_block_done` is its number. -/
theorem recvGot_good {cfg : XmConfig} {r : XmRecv} {b : UInt8} {buf : List UInt8} (h : r.goodBlock b = some buf) :
    recvGot cfg r (some b) = r.accept buf := by
  unfold XmRecv.goodBlock at h
  unfold recvGot
  split at h
  · next hpc =>
    split_ifs at h with hgood
    cases h
    simp [hpc, hgood.1, hgood.2]
  · next hpc =>
    split_ifs at h with hgood
    cases h
    simp [hpc, hgood]
  · cases h

/-- A good block is one of the file. -/
theorem XmInv.goodBlock_le {cfg : XmConfig} {file : List UInt8} {x : XmState} {items : List XmItem} {b : UInt8}
    {buf : List UInt8} (h : XmInv cfg file x items) (hw : x.recv.Waits) (hb : x.recv.goodBlock b = some buf) :
    x.recv.blocknr ≤ xmBlocks cfg file := by
  have hreading := h.reading hw.1
  unfold XmRecv.goodBlock at hb
  split at hb
  · next hpc =>
    rw [hpc] at hreading
    obtain ⟨u, hpending, -⟩ := hreading
    exact hpending.sendable.le
  · next hpc =>
    rw [hpc] at hreading
    obtain ⟨u, _, hpending, -⟩ := hreading
    exact hpending.sendable.le
  · cases hb

/-- **When a good block is acknowledged**: in every run, `XM_ACK` answers it exactly if the destination does not hold
it yet. A copy that comes because the acknowledgement was lost is not written again, and is not answered. -/
theorem xmodem_copy_iff (cfg : XmConfig) (file : List UInt8) {x : XmState} {log : List Unit} {b : UInt8}
    {buf : List UInt8} (h : (xmMachine cfg file).Run (fun _ _ => True) x log) (hw : x.recv.Waits)
    (hb : x.recv.goodBlock b = some buf) :
    ((recvGot cfg x.recv (some b)).2 = [xmAck] ↔ x.recv.dest.length < x.recv.blocknr * cfg.bufsize) ∧
      (x.recv.blocknr * cfg.bufsize ≤ x.recv.dest.length → (recvGot cfg x.recv (some b)).1.dest = x.recv.dest) := by
  obtain ⟨items, hi⟩ := xmInv_run h
  have hpos := cfg.bufsize_pos
  have hle := hi.goodBlock_le hw hb
  have hdone : x.recv.lastBlockDone ≤ x.recv.blocknr := by
    have := hi.blocknr
    omega
  have hlen : x.recv.dest.length = x.recv.lastBlockDone * cfg.bufsize := by
    rw [hi.dest, length_take, length_xmPadded]
    exact Nat.min_eq_left (Nat.mul_le_mul_right _ (Nat.le_trans hdone hle))
  rw [recvGot_good hb, hlen, Nat.mul_lt_mul_right hpos, Nat.mul_le_mul_right_iff hpos]
  unfold XmRecv.accept
  split_ifs with hnew
  · exact ⟨iff_of_true rfl hnew, fun hold => absurd hnew (Nat.not_lt.mpr hold)⟩
  · exact ⟨iff_of_false (by simp) hnew, fun _ => rfl⟩

/-- The first copy of the only block, up to its last byte. -/
def firstCopy : List XmAct := [.recvPurge 0, .sendGet] ++ replicate 132 .recvGet

/-- The state of a transfer of one byte after these actions. -/
def oneByteRun (acts : List XmAct) : Option (XmState × List Unit) :=
  (xmMachine ⟨false, 25, 7⟩ [1]).exec (fun _ _ => True) ⟨xmSendInit ⟨false, 25, 7⟩ [1], xmRecvInit, [], [], []⟩ [] acts

theorem xmodem_copy_iff_first : ∃ (x : XmState) (log : List Unit) (b : UInt8),
    (xmMachine ⟨false, 25, 7⟩ [1]).Run (fun _ _ => True) x log ∧ x.cur = [b] ∧
      (recvGot ⟨false, 25, 7⟩ x.recv (some b)).2 = [xmAck] := by
  have hex : (oneByteRun firstCopy).any (fun r => r.1.recv.Waits ∧ ∃ b ∈ r.1.cur.head?, r.1.cur = [b] ∧
      (r.1.recv.goodBlock b).isSome ∧ r.1.recv.dest.length < r.1.recv.blocknr * 128) = true := by
    decide +kernel
  obtain ⟨r, hr, hok⟩ := (any_eq_true _ _).mp hex
  obtain ⟨hw, b, -, hcur, hgood, hnew⟩ := of_decide_eq_true hok
  have hrun := Machine.Run.exec (Machine.Run.init rfl) hr
  exact ⟨r.1, r.2, b, hrun, hcur, (xmodem_copy_iff _ _ hrun hw (some_get hgood).symm).1.mpr hnew⟩

/-- The acknowledgement of the block is lost, and the sender is asked for it again: the last byte of the copy, which is
good, gets no answer. -/
theorem xmodem_copy_unanswered : ∃ (x : XmState) (log : List Unit) (b : UInt8),
    (xmMachine ⟨false, 25, 7⟩ [1]).Run (fun _ _ => True) x log ∧ x.cur = [b] ∧ (x.recv.goodBlock b).isSome ∧
      x.recv.dest = xmPadded ⟨false, 25, 7⟩ [1] ∧ (recvGot ⟨false, 25, 7⟩ x.recv (some b)).2 = [] := by
  have hex : (oneByteRun (firstCopy ++ [.recvGet, .loseToSend 0, .recvTimeout, .recvPurge 0, .sendGet] ++
      replicate 132 .recvGet)).any (fun r => ∃ b ∈ r.1.cur.head?, r.1.cur = [b] ∧ (r.1.recv.goodBlock b).isSome ∧
      r.1.recv.dest = xmPadded ⟨false, 25, 7⟩ [1] ∧ (recvGot ⟨false, 25, 7⟩ r.1.recv (some b)).2 = []) = true := by
    decide +kernel
  obtain ⟨r, hr, hok⟩ := (any_eq_true _ _).mp hex
  obtain ⟨b, -, hcur, hrest⟩ := of_decide_eq_true hok
  exact ⟨r.1, r.2, b, Machine.Run.exec (Machine.Run.init rfl) hr, hcur, hrest⟩

end Bertos
