import Bertos.Net.TftpTransfer

/-!
# A TFTP transfer delivers the file

`Sequence file k evs`: what a client sends that follows the protocol, when `k` blocks of `file` are accepted, with
repetitions of the request and of the accepted packets. Such a sequence is a `Transfer` of the rest of the file
(`Sequence.transfer`), and `tftpReads`, reads of any sizes up to a packet's, cut the file into pieces of these sizes
(`tftpReads_stream`).
-/

namespace Bertos

open List

/-! ## The client -/

/-- `DATA` packet number `k` of a file. -/
def dataPacket (file : List UInt8) (k : ℕ) : List UInt8 :=
  [0, 3, UInt8.ofNat (k / 256), UInt8.ofNat (k % 256)] ++ (file.drop (512 * (k - 1))).take 512

/-- The number of `DATA` packets of a file: the last one is shorter than the others, and may be empty. -/
def dataBlocks (file : List UInt8) : ℕ := file.length / 512 + 1

/-- A write request: what follows the opcode is free. -/
def IsWrq (dg : List UInt8) : Prop := ∃ text, dg = 0 :: 2 :: text

/-- What arrives when `k` blocks are accepted, all acknowledgements going out. Whatever follows the last packet is not
looked at. -/
inductive Sequence (file : List UInt8) : ℕ → List NetEvent → Prop
  | request {src dg e evs} (hw : IsWrq dg) (h : Sequence file 0 evs) :
      Sequence file 0 (.datagram src dg true e :: evs)
  | repeated {k j src e evs} (hj : 0 < j) (hk : j ≤ k) (h : Sequence file k evs) :
      Sequence file k (.datagram src (dataPacket file j) true e :: evs)
  | next {k src e evs} (hk : k + 1 < dataBlocks file) (h : Sequence file (k + 1) evs) :
      Sequence file k (.datagram src (dataPacket file (k + 1)) true e :: evs)
  | last {k src e evs} (hk : k + 1 = dataBlocks file) :
      Sequence file k (.datagram src (dataPacket file (k + 1)) true e :: evs)

/-- The number of blocks accepted after an event. -/
def lastAccepted (file : List UInt8) (k : ℕ) : NetEvent → ℕ
  | .datagram _ dg _ _ => if dg = dataPacket file (k + 1) then k + 1 else k
  | _ => k

/-- The numbers of blocks accepted after each of the events. -/
def acceptedTrail (file : List UInt8) : ℕ → List NetEvent → List ℕ
  | _, [] => []
  | k, ev :: evs => lastAccepted file k ev :: acceptedTrail file (lastAccepted file k ev) evs

section Client

variable {file : List UInt8} {fr : ℕ → UInt8} {k j : ℕ}

theorem recvFrame_apply {dg : List UInt8} {i : ℕ} (hi : i < 4) (hd : i < dg.length) :
    recvFrame fr dg i = dg[i] := by
  have hl : i < (dg.take tftpPacketSize).length := by
    rw [length_take]; simp only [tftpPacketSize]; omega
  have h := Mem.write_add fr 0 (dg.take tftpPacketSize) hl
  rw [Nat.zero_add] at h
  rw [recvFrame, h, getElem_take]

theorem frameVerdict_request {dg : List UInt8} (hw : IsWrq dg) : frameVerdict 0 (recvFrame fr dg) = .dup := by
  obtain ⟨text, rfl⟩ := hw
  have h0 : recvFrame fr (0 :: 2 :: text) 0 = 0 := recvFrame_apply (by decide) (by simp)
  have h1 : recvFrame fr (0 :: 2 :: text) 1 = 2 := recvFrame_apply (by decide) (by simp)
  simp [frameVerdict, frameWord, h0, h1, opData, opWrq]

theorem frameWord_dataPacket (file : List UInt8) (fr : ℕ → UInt8) (hj : j < 65536) :
    frameWord (recvFrame fr (dataPacket file j)) 0 = opData ∧ frameWord (recvFrame fr (dataPacket file j)) 2 = j := by
  have hlen : 4 ≤ (dataPacket file j).length := by simp [dataPacket]
  simp only [frameWord]
  rw [recvFrame_apply (i := 0) (by decide) (by omega), recvFrame_apply (i := 0 + 1) (by decide) (by omega),
    recvFrame_apply (i := 2) (by decide) (by omega), recvFrame_apply (i := 2 + 1) (by decide) (by omega)]
  simp [dataPacket, opData]
  omega

theorem frameVerdict_repeated (hk : k < 65536) (hj : j ≤ k) :
    frameVerdict k (recvFrame fr (dataPacket file j)) = .dup := by
  obtain ⟨h0, h1⟩ := frameWord_dataPacket file fr (show j < 65536 by omega)
  simp only [frameVerdict, h0, h1, if_true]
  rw [if_neg (by omega), if_pos (by omega)]

theorem frameVerdict_next (hk : k + 1 < 65536) : frameVerdict k (recvFrame fr (dataPacket file (k + 1))) = .ok := by
  obtain ⟨h0, h1⟩ := frameWord_dataPacket file fr hk
  simp [frameVerdict, h0, h1]

theorem dataPacket_inj (hk : k < 65536) (hj : j < 65536) (h : dataPacket file j = dataPacket file k) : j = k := by
  have h1 := (frameWord_dataPacket file (fun _ => 0) hj).2
  rw [h, (frameWord_dataPacket file _ hk).2] at h1
  exact h1.symm

theorem dataPacket_data (k : ℕ) : (dataPacket file (k + 1)).drop tftpHeaderSize = (file.drop (512 * k)).take 512 := by
  simp [dataPacket, tftpHeaderSize]

theorem length_dataPacket (file : List UInt8) (k : ℕ) : (dataPacket file (k + 1)).length =
    4 + min 512 (file.length - 512 * k) := by
  simp [dataPacket]; omega

/-- A client that follows the protocol transfers the rest of its file, and each acknowledgement carries the number of
the last block accepted. -/
theorem Sequence.transfer {evs : List NetEvent} (h : Sequence file k evs) (hfile : dataBlocks file < 65536)
    (hk : k < dataBlocks file) (fr : ℕ → UInt8) :
    ∃ A, Transfer k fr evs (file.drop (512 * k)) none A ∧ A = (acceptedTrail file k evs).take A.length := by
  induction h generalizing fr with
  | @request src dg e evs hw h ih =>
    obtain ⟨A, hA, hl⟩ := ih hk (recvFrame fr dg)
    have hne : dg ≠ dataPacket file 1 := by
      obtain ⟨text, rfl⟩ := hw
      simp [dataPacket]
    refine ⟨0 :: A, .dup ?_ (frameVerdict_request hw) hA, ?_⟩
    · obtain ⟨text, rfl⟩ := hw
      exact cons_ne_nil _ _
    · simpa [acceptedTrail, lastAccepted, hne] using hl
  | @repeated k j src e evs hj hle h ih =>
    obtain ⟨A, hA, hl⟩ := ih hk (recvFrame fr (dataPacket file j))
    have hne : dataPacket file j ≠ dataPacket file (k + 1) := fun he => by
      have := dataPacket_inj (by omega) (by omega) he
      omega
    refine ⟨k :: A, .dup (cons_ne_nil _ _) (frameVerdict_repeated (by omega) hle) hA, ?_⟩
    simpa [acceptedTrail, lastAccepted, hne] using hl
  | @next k src e evs hlt h ih =>
    obtain ⟨A, hA, hl⟩ := ih hlt (recvFrame fr (dataPacket file (k + 1)))
    have hlong : 512 * (k + 1) ≤ file.length := by simp only [dataBlocks] at hlt; omega
    have hlen : (dataPacket file (k + 1)).length = tftpPacketSize := by
      rw [length_dataPacket]; simp only [tftpPacketSize]; omega
    have hdata : file.drop (512 * k) = ((dataPacket file (k + 1)).take tftpPacketSize).drop tftpHeaderSize ++
        file.drop (512 * (k + 1)) := by
      rw [← hlen, take_length, dataPacket_data, Nat.mul_succ, ← drop_drop, take_append_drop]
    refine ⟨(k + 1) :: A, ?_, by simpa [acceptedTrail, lastAccepted] using hl⟩
    rw [hdata]
    exact .full (Nat.le_of_eq hlen.symm) (frameVerdict_next (by omega)) hA
  | @last k src e evs heq =>
    have hshort : file.length < 512 * (k + 1) := by simp only [dataBlocks] at heq; omega
    have hlen := length_dataPacket file k
    have hdata : file.drop (512 * k) = (dataPacket file (k + 1)).drop tftpHeaderSize := by
      rw [dataPacket_data, take_of_length_le]
      rw [length_drop]; omega
    refine ⟨[k + 1], ?_, by simp [acceptedTrail, lastAccepted]⟩
    rw [hdata]
    refine .last ?_ ?_ (frameVerdict_next (by omega))
    · simp only [tftpHeaderSize]; omega
    · simp only [dataBlocks, tftpPacketSize] at heq ⊢; omega

end Client

/-! ## The reads -/

section Reads

variable (ram : TftpSession → ℕ → UInt8)

/-- A series of reads: what they return, `none` if one of them waits. -/
def tftpReads (s : TftpSession) (n : Net) : List ℕ → Option (List (List UInt8) × TftpSession × Net)
  | [] => some ([], s, n)
  | size :: sizes =>
    match tftpRead ram s n size with
    | (none, _, _) => none
    | (some bytes, s', n') => (tftpReads s' n' sizes).map fun r => (bytes :: r.1, r.2)

/-- A file cut into pieces of the given sizes. -/
def pieces : List UInt8 → List ℕ → List (List UInt8)
  | _, [] => []
  | file, size :: sizes => file.take size :: pieces (file.drop size) sizes

@[simp] def totalSize : List ℕ → ℕ
  | [] => 0
  | size :: sizes => size + totalSize sizes

theorem totalSize_append (as bs : List ℕ) : totalSize (as ++ bs) = totalSize as + totalSize bs := by
  induction as with
  | nil => simp
  | cons a as ih => simp [ih, Nat.add_assoc]

section
variable (sizes : List ℕ)
include sizes

theorem length_pieces : ∀ file, (pieces file sizes).length = sizes.length := by
  induction sizes with
  | nil => intro _; rfl
  | cons size sizes ih => intro file; simp [pieces, ih]

theorem flatten_pieces : ∀ file, (pieces file sizes).flatten = file.take (totalSize sizes) := by
  induction sizes with
  | nil => intro file; simp [pieces]
  | cons size sizes ih => intro file; simp [pieces, ih, take_add]

theorem take_pieces : ∀ file i, (pieces file sizes).take i = pieces file (sizes.take i) := by
  induction sizes with
  | nil => intro file i; simp [pieces]
  | cons size sizes ih =>
    intro file i
    cases i with
    | zero => rfl
    | succ i => simp [pieces, ih]

theorem drop_pieces :
    ∀ file i, (pieces file sizes).drop i = pieces (file.drop (totalSize (sizes.take i))) (sizes.drop i) := by
  induction sizes with
  | nil => intro file i; simp [pieces]
  | cons size sizes ih =>
    intro file i
    cases i with
    | zero => simp
    | succ i => simp [pieces, ih]

theorem eq_nil_of_mem_pieces : ∀ piece ∈ pieces [] sizes, piece = [] := by
  induction sizes with
  | nil => simp [pieces]
  | cons size sizes ih => simpa [pieces] using ih

end

/-- A short piece is the last of the file. -/
theorem pieces_short {file : List UInt8} {sizes : List ℕ} {i size : ℕ} {piece : List UInt8}
    (hp : (pieces file sizes)[i]? = some piece) (hs : sizes[i]? = some size) :
    piece.length ≤ size ∧ (piece.length < size → ((pieces file sizes).take (i + 1)).flatten = file ∧
      ∀ later ∈ (pieces file sizes).drop (i + 1), later = []) := by
  have hsum : totalSize (sizes.take (i + 1)) = totalSize (sizes.take i) + size := by
    rw [List.take_add_one, hs, totalSize_append]; simp
  have hpiece : piece = (file.drop (totalSize (sizes.take i))).take size := by
    have h : ((pieces file sizes).drop i)[0]? = some piece := by rw [List.getElem?_drop]; exact hp
    obtain ⟨rest, hd⟩ : ∃ rest, sizes.drop i = size :: rest :=
      ⟨sizes.drop (i + 1), by
        obtain ⟨hi, rfl⟩ := List.getElem?_eq_some_iff.mp hs
        exact List.drop_eq_getElem_cons hi⟩
    rw [drop_pieces, hd] at h
    exact (Option.some.inj h).symm
  have hlen : piece.length = min size (file.length - totalSize (sizes.take i)) := by simp [hpiece]
  refine ⟨by omega, fun hlt => ?_⟩
  have hall : file.length ≤ totalSize (sizes.take (i + 1)) := by omega
  rw [take_pieces, flatten_pieces, drop_pieces, List.take_of_length_le hall, List.drop_of_length_le hall]
  exact ⟨rfl, eq_nil_of_mem_pieces _⟩

variable {n : Net} {A : List ℕ}

/-- The reads of a session, of which the first sends the acknowledgement of the request if it is due. -/
theorem tftpReads_stream (sizes : List ℕ) : ∀ {s : TftpSession} {n : Net} {R : List UInt8} {A : List ℕ},
    Stream s n.events R none A → (∀ size ∈ sizes, size ≤ 512) →
    ∃ s' n' m, tftpReads ram s n sizes = some (pieces R sizes, s', n') ∧ n'.events = n.events.drop m ∧ m ≤ A.length ∧
      n'.sent = (if sizes = [] then n else (sendPendingAck s n).2).sent ++ (A.take m).map (.ack s.addr) := by
  induction sizes with
  | nil =>
    intro s n R A _ _
    exact ⟨s, n, 0, rfl, rfl, Nat.zero_le _, by simp⟩
  | cons size sizes ih =>
    intro s n R A hs hsize
    obtain ⟨s1, n1, A1, A2, hr, hs1, rfl, hev, hack, haddr, hsent⟩ :=
      tftpRead_stream ram hs size (hsize size (by simp)) (.inr rfl)
    obtain ⟨s', n', m, hrs, hev', hm, hsent'⟩ := ih hs1 fun x hx => hsize x (by simp [hx])
    refine ⟨s', n', A1.length + m, ?_, ?_, by simp [hm], ?_⟩
    · simp only [tftpReads, hr, hrs, Option.map_some, pieces]
    · rw [hev', hev, drop_drop]
    · have hdone : sendPendingAck s1 n1 = (s1, n1) := by simp [sendPendingAck, hack]
      rw [hsent', hdone, ite_self, hsent, haddr, take_length_add_append]
      simp

theorem tftpListen_request (s0 : TftpSession) (len : ℕ) {src : SockAddr} {dg : List UInt8} {ok : Bool} {e : ℤ}
    {evs : List NetEvent} (hw : IsWrq dg) (hev : n.events = .datagram src dg ok e :: evs) :
    ∃ s, tftpListen s0 n len = (.file (requestName (recvFrame s0.frame dg) len), s, ⟨evs, e, n.sent⟩) ∧
      s = { resetTftpState s0 with addr := src, frame := recvFrame s0.frame dg, pendingAck := true } := by
  have hop : frameWord (recvFrame s0.frame dg) 0 = opWrq := by
    obtain ⟨text, rfl⟩ := hw
    have h0 : recvFrame s0.frame (0 :: 2 :: text) 0 = 0 := recvFrame_apply (by decide) (by simp)
    have h1 : recvFrame s0.frame (0 :: 2 :: text) 1 = 2 := recvFrame_apply (by decide) (by simp)
    simp [frameWord, h0, h1, opWrq]
  have hne : dg.length ≠ 0 := by
    obtain ⟨text, rfl⟩ := hw
    simp
  refine ⟨_, ?_, rfl⟩
  simp only [tftpListen, hev, resetTftpState, hop, hne, ne_eq, not_false_eq_true, and_self, if_true]

/-- **Delivery**: a client that follows the protocol sends `file`, with any repetitions, and the session is read in
portions of any sizes between 1 and 512. No read waits for ever; the concatenation of the results is the file, as far as
it is asked for; a read that returns less than was asked for ends the file, and the later ones return nothing. The
request is acknowledged by number 0, and each datagram taken by the number of the last block accepted. -/
theorem tftp_delivers_file (s₀ : TftpSession) (n : Net) (len : ℕ) (file request : List UInt8) (src : SockAddr)
    (ok : Bool) (e : ℤ) (evs : List NetEvent) (sizes : List ℕ) (hfile : dataBlocks file < 65536) (hw : IsWrq request)
    (hn : n.events = .datagram src request ok e :: evs) (hseq : Sequence file 0 evs)
    (hsize : ∀ size ∈ sizes, 1 ≤ size ∧ size ≤ 512) (hne : sizes ≠ []) :
    ∃ name s n₁ results s' n' m, tftpListen s₀ n len = (.file name, s, n₁) ∧
      tftpReads ram s n₁ sizes = some (results, s', n') ∧ results.length = sizes.length ∧
      results.flatten = file.take (totalSize sizes) ∧
      (∀ (i : ℕ) (bytes : List UInt8) (size : ℕ), results[i]? = some bytes → sizes[i]? = some size →
        bytes.length ≤ size ∧ (bytes.length < size → (results.take (i + 1)).flatten = file ∧
          ∀ later ∈ results.drop (i + 1), later = [])) ∧
      n'.events = evs.drop m ∧
      n'.sent = n.sent ++ .ack src 0 :: ((acceptedTrail file 0 evs).take m).map (.ack src) := by
  obtain ⟨s, hl, hs⟩ := tftpListen_request s₀ len hw hn
  obtain ⟨A, hA, htrail⟩ := hseq.transfer hfile (by simp [dataBlocks]) (recvFrame s₀.frame request)
  have hstream : Stream s evs file none A := by
    rw [hs]
    exact ⟨rfl, Nat.zero_le _, Nat.zero_le _, file, by simp [pending,
      resetTftpState], by simpa [resetTftpState] using hA⟩
  obtain ⟨s', n', m, hr, hev, hm, hsent⟩ := tftpReads_stream ram sizes (n := ⟨evs, e, n.sent⟩) hstream
    fun size h => (hsize size h).2
  refine ⟨_, s, _, _, s', n', m, hl, hr, length_pieces _ _, flatten_pieces _ _, fun _ _ _ => pieces_short, hev, ?_⟩
  rw [hsent, if_neg hne, htrail, take_take, Nat.min_eq_left hm, hs]
  exact append_assoc _ _ _

end Reads

/-- A file of two blocks, whose request and first block come twice, read in portions of 300 bytes. -/
theorem tftp_delivers_two_blocks :
    ∃ name s n₁ results s' n', tftpListen tftpInit
        ⟨[.datagram ⟨1, 69⟩ [0, 2, 97, 0] true 0, .datagram ⟨1, 69⟩ [0, 2, 97, 0] true 0,
          .datagram ⟨1, 69⟩ (dataPacket (List.replicate 600 7) 1) true 0,
          .datagram ⟨1, 69⟩ (dataPacket (List.replicate 600 7) 1) true 0,
          .datagram ⟨1, 69⟩ (dataPacket (List.replicate 600 7) 2) true 0], 0, []⟩ 20 = (.file name, s, n₁) ∧
      tftpReads (fun _ _ => 0) s n₁ [300, 300, 300] = some (results, s', n') ∧
      results.flatten = List.replicate 600 7 := by
  have hb : dataBlocks (replicate 600 7) = 2 := by rw [dataBlocks, length_replicate]
  have hseq : Sequence (replicate 600 7) 0 [.datagram ⟨1, 69⟩ [0, 2, 97, 0] true 0,
      .datagram ⟨1, 69⟩ (dataPacket (replicate 600 7) 1) true 0,
      .datagram ⟨1, 69⟩ (dataPacket (replicate 600 7) 1) true 0,
      .datagram ⟨1, 69⟩ (dataPacket (replicate 600 7) 2) true 0] :=
    .request ⟨_, rfl⟩ (.next (by rw [hb]; decide) (.repeated (by decide) (by decide) (.last hb.symm)))
  obtain ⟨name, s, n₁, results, s', n', -, hl, hr, -, hf, -⟩ := tftp_delivers_file (fun _ _ => 0) tftpInit ⟨_, 0, []⟩ 20
    (replicate 600 7) [0, 2, 97, 0] ⟨1, 69⟩ true 0 _ [300, 300, 300] (by rw [hb]; decide) ⟨_, rfl⟩ rfl hseq
    (by decide) (by decide)
  exact ⟨name, s, n₁, results, s', n', hl, hr, hf.trans (take_of_length_le (by rw [length_replicate]; decide))⟩

end Bertos
