import Bertos.Net.TftpTransfer

/-!
# What others can do to a TFTP session

A session takes every datagram that reaches its socket: it looks neither at the sender nor at the length. A datagram
shorter than a header is judged by bytes of the packets before it. If one is accepted, the number of data bytes wraps
around (`tftpTrace_inRange_iff`). A datagram of another host does no harm only if it is judged a duplicate
(`tftpTrace_harmless`); a forged next block is delivered (`tftpTrace_forged`).
-/

namespace Bertos

section Trace

variable (ram : TftpSession → ℕ → UInt8)

/-- The results of a series of reads, each with the session after it; a read that waits ends the series. -/
def tftpTrace (s : TftpSession) (n : Net) : List ℕ → List (List UInt8 × TftpSession)
  | [] => []
  | size :: sizes =>
    match tftpRead ram s n size with
    | (none, _, _) => []
    | (some bytes, s', n') => (bytes, s') :: tftpTrace s' n' sizes

/-- The bookkeeping of a session: what is copied out of the frame lies in its data. -/
structure FrameInv (s : TftpSession) : Prop where
  avail : s.bytesAvailable ≤ s.validData
  valid : s.validData ≤ 512

/-- The read takes a packet that is shorter than its header. -/
def TakesShort (s : TftpSession) (n : Net) (size : ℕ) : Prop :=
  s.bytesAvailable < size ∧ s.isXferEnd = false ∧
    ∃ rd, (tftpReadPacket { s with pendingAck := false } (sendPendingAck s n).2).1 = some rd ∧ 0 ≤ rd ∧
      rd < (tftpHeaderSize : ℤ)

/-- No read of the series takes a short packet. -/
def NoneShort (s : TftpSession) (n : Net) : List ℕ → Prop
  | [] => True
  | size :: sizes =>
    ¬ TakesShort s n size ∧ ∀ bytes s' n', tftpRead ram s n size = (some bytes, s', n') → NoneShort s' n' sizes

variable {s s' : TftpSession} {n n' : Net} {rd : ℤ}

theorem tftpListen_frameInv {len : ℕ} {name : List UInt8} (h : tftpListen s n len = (.file name, s', n')) :
    FrameInv s' := by
  unfold tftpListen at h
  split at h
  · cases h
  · cases h
  · cases h
  · cases h
  · dsimp only at h
    split at h
    · cases h
      exact ⟨Nat.le_refl _, Nat.zero_le _⟩
    · cases h

/-- What a packet can change, and its length. -/
theorem readPacketLoop_some {evs : List NetEvent} {e0 : ℤ} {sent : List Sent}
    (h : tftpReadPacketLoop evs e0 sent s = (some rd, s', n')) :
    (∃ b f, s' = { s with block := b, frame := f }) ∧ (rd < 0 ∨ 1 ≤ rd ∧ rd ≤ 516) := by
  have herr : tftpErr < 0 := by decide
  induction evs generalizing s e0 sent with
  | nil => cases h
  | cons ev evs ih =>
    cases ev with
    | timeout e => cases h; exact ⟨⟨_, _, rfl⟩, .inl (by decide)⟩
    | selectError e | recvError e => cases h; exact ⟨⟨_, _, rfl⟩, .inl herr⟩
    | datagram src dg sendOk e =>
      simp only [tftpReadPacketLoop] at h
      split at h
      · cases h
        exact ⟨⟨_, _, rfl⟩, .inl herr⟩
      rename_i hlen
      simp only [tftpPacketSize] at hlen
      cases hv : frameVerdict s.block (recvFrame s.frame dg) with
      | err =>
        simp only [checkPacket, hv] at h
        cases h
        exact ⟨⟨_, _, rfl⟩, .inl herr⟩
      | dup =>
        cases sendOk with
        | false =>
          simp only [checkPacket, hv, Bool.false_eq_true, if_false] at h
          cases h
          exact ⟨⟨_, _, rfl⟩, .inl herr⟩
        | true =>
          simp only [checkPacket, hv, if_true, reduceCtorEq, if_false] at h
          obtain ⟨⟨b, f, hs⟩, hrd⟩ := ih h
          exact ⟨⟨b, f, hs⟩, hrd⟩
      | ok =>
        cases sendOk with
        | false =>
          simp only [checkPacket, hv, Bool.false_eq_true, if_false] at h
          cases h
          exact ⟨⟨_, _, rfl⟩, .inl herr⟩
        | true =>
          simp only [checkPacket, hv, if_true] at h
          cases h
          exact ⟨⟨_, _, rfl⟩, .inr (by simp only [tftpPacketSize]; omega)⟩

theorem tftpRead_none {size : ℕ} (h : s.bytesAvailable < size) (hx : s.isXferEnd = false)
    (hp : tftpReadPacket { s with pendingAck := false } (sendPendingAck s n).2 = (none, s', n')) :
    tftpRead ram s n size = (none, s', n') := by
  rw [tftpRead_ack]
  simp only [hx] at hp
  simp only [tftpRead, sendPendingAck, Bool.false_eq_true, if_false, if_pos h, hx] at hp ⊢
  rw [hp]

/-- **One read** keeps the bookkeeping in range exactly if it does not take a short packet. -/
theorem tftpRead_frameInv (hs : FrameInv s) {size : ℕ} {bytes : List UInt8}
    (h : tftpRead ram s n size = (some bytes, s', n')) : FrameInv s' ↔ ¬ TakesShort s n size := by
  by_cases hlt : s.bytesAvailable < size
  · cases hx : s.isXferEnd with
    | true =>
      rw [tftpRead_end ram hs.valid hs.avail hlt hx] at h
      cases h
      exact iff_of_true ⟨Nat.le_refl _, Nat.zero_le _⟩ fun ⟨_, hend, _⟩ => by cases hx.symm.trans hend
    | false =>
      rcases hp : tftpReadPacket { s with pendingAck := false } (sendPendingAck s n).2 with ⟨_ | rd, t, m⟩
      · rw [tftpRead_none ram hlt hx hp] at h
        cases h
      rw [tftpRead_wait ram hlt hx hp] at h
      obtain ⟨⟨b, f, rfl⟩, hrd⟩ := readPacketLoop_some hp
      have hshort : TakesShort s n size ↔ 0 ≤ rd ∧ rd < (tftpHeaderSize : ℤ) := by
        rw [TakesShort, hp]
        simp [hlt, hx]
      rw [hshort]
      simp only [tftpHeaderSize] at h ⊢
      by_cases hneg : rd < 0
      · simp only [if_pos hneg] at h
        cases h
        exact iff_of_true ⟨Nat.zero_le _, hs.valid⟩ (by omega)
      · simp only [if_neg hneg] at h
        cases h
        constructor
        · rintro ⟨-, hv⟩
          simp only at hv
          omega
        · intro hlong
          exact ⟨Nat.sub_le _ _, by simp only; omega⟩
  · rw [tftpRead_pending ram hs.valid hs.avail (Nat.le_of_not_lt hlt)] at h
    cases h
    have ha := hs.avail
    exact iff_of_true ⟨by simp only; omega, hs.valid⟩ fun hshort => hlt hshort.1

theorem tftpTrace_cons {size : ℕ} {sizes : List ℕ} {bytes : List UInt8}
    (h : tftpRead ram s n size = (some bytes, s', n')) :
    tftpTrace ram s n (size :: sizes) = (bytes, s') :: tftpTrace ram s' n' sizes := by
  simp only [tftpTrace, h]

/-- **Hostile input**: from an accepted request on, the bookkeeping is in range after every read, exactly if no read
takes a packet shorter than its header. -/
theorem tftpTrace_inRange_iff {s₀ : TftpSession} {n₀ : Net} {len : ℕ} {name : List UInt8}
    (hlisten : tftpListen s₀ n₀ len = (.file name, s, n)) (sizes : List ℕ) :
    (∀ r ∈ tftpTrace ram s n sizes, r.2.bytesAvailable ≤ r.2.validData ∧ r.2.validData ≤ 512) ↔
      NoneShort ram s n sizes := by
  have hs := tftpListen_frameInv hlisten
  clear hlisten
  induction sizes generalizing s n with
  | nil => simp [tftpTrace, NoneShort]
  | cons size sizes ih =>
    rcases hr : tftpRead ram s n size with ⟨_ | bytes, s₁, n₁⟩
    · have hshort : ¬ TakesShort s n size := by
        rintro ⟨hlt, hx, rd, hp, h₀, -⟩
        rcases hq : tftpReadPacket { s with pendingAck := false } (sendPendingAck s n).2 with ⟨_ | _, t, m⟩
        · rw [hq] at hp
          cases hp
        · rw [hq] at hp
          cases hp
          rw [tftpRead_wait ram hlt hx hq, if_neg (Int.not_lt.mpr h₀)] at hr
          cases hr
      simp [tftpTrace, NoneShort, hr, hshort]
    · have hone := tftpRead_frameInv ram hs hr
      rw [tftpTrace_cons ram hr, List.forall_mem_cons]
      constructor
      · rintro ⟨⟨ha, hv⟩, hall⟩
        refine ⟨hone.mp ⟨ha, hv⟩, fun bytes' s' n' h' => ?_⟩
        rw [hr] at h'
        cases h'
        exact (ih ⟨ha, hv⟩).mp hall
      · rintro ⟨hshort, hall⟩
        have hs₁ := hone.mpr hshort
        exact ⟨⟨hs₁.avail, hs₁.valid⟩, (ih hs₁).mpr (hall _ _ _ hr)⟩

/-- The session and the socket after the request `[0, 2, 97]` of a host, when `evs` is to come. -/
def requested (evs : List NetEvent) : TftpSession × Net :=
  (tftpListen tftpInit ⟨.datagram ⟨1, 69⟩ [0, 2, 97] true 0 :: evs, 0, []⟩ 4).2

theorem requested_listen (evs : List NetEvent) :
    tftpListen tftpInit ⟨.datagram ⟨1, 69⟩ [0, 2, 97] true 0 :: evs, 0, []⟩ 4 =
      (.file [97], (requested evs).1, (requested evs).2) :=
  Prod.ext (by rfl) rfl

theorem tftpTrace_inRange_packet :
    NoneShort (fun _ _ => 0) (requested [.datagram ⟨1, 69⟩ [0, 3, 0, 1, 98] true 0]).1
      (requested [.datagram ⟨1, 69⟩ [0, 3, 0, 1, 98] true 0]).2 [2, 1] :=
  (tftpTrace_inRange_iff _ (requested_listen _) [2, 1]).mp (by decide)

/-- A second request brings a block number into the frame, and two bytes complete it to a packet. -/
theorem tftpTrace_short :
    ∃ r ∈ tftpTrace (fun _ _ => 0)
        (requested [.datagram ⟨1, 69⟩ [0, 2, 0, 1] true 0, .datagram ⟨1, 69⟩ [0, 3] true 0]).1
        (requested [.datagram ⟨1, 69⟩ [0, 2, 0, 1] true 0, .datagram ⟨1, 69⟩ [0, 3] true 0]).2 [1],
      r.2.bytesAvailable = 4294967293 ∧ r.2.validData = 4294967294 := by
  decide

end Trace

/-! ## Datagrams of other hosts -/

section Foreign

/-- The event is not a datagram of another host. -/
def fromPeer (peer : SockAddr) : NetEvent → Bool
  | .datagram src _ _ _ => decide (src = peer)
  | _ => true

/-- The verdict on a datagram that has a header of its own. -/
def packetVerdict (block : ℕ) (dg : List UInt8) : Check := frameVerdict block (recvFrame (fun _ => 0) dg)

/-- When `block` blocks are accepted: no datagram is shorter than a header, and those of other hosts are taken for
duplicates, with an acknowledgement that goes out. -/
def Harmless (peer : SockAddr) : ℕ → List NetEvent → Prop
  | _, [] => True
  | block, .datagram src dg sendOk _ :: evs =>
    tftpHeaderSize ≤ dg.length ∧ (src ≠ peer → sendOk = true ∧ packetVerdict block dg = .dup) ∧
      Harmless peer (if packetVerdict block dg = .ok then (block + 1) % 65536 else block) evs
  | block, .timeout _ :: evs | block, .selectError _ :: evs | block, .recvError _ :: evs => Harmless peer block evs

theorem frameVerdict_recvFrame {dg : List UInt8} (h : tftpHeaderSize ≤ dg.length) (b : ℕ) (fr : ℕ → UInt8) :
    frameVerdict b (recvFrame fr dg) = packetVerdict b dg := by
  have hbyte : ∀ i < 4, recvFrame fr dg i = recvFrame (fun _ => 0) dg i := by
    intro i hi
    have hl : i < 0 + (dg.take tftpPacketSize).length := by
      simp only [List.length_take, tftpHeaderSize, tftpPacketSize] at h ⊢
      omega
    refine Option.some.inj ?_
    rw [recvFrame, recvFrame, Mem.write_of_mem _ _ _ (Nat.zero_le i) hl, Mem.write_of_mem _ _ _ (Nat.zero_le i) hl]
  have hword : ∀ i < 3, frameWord (recvFrame fr dg) i = frameWord (recvFrame (fun _ => 0) dg) i := by
    intro i hi
    rw [frameWord, frameWord, hbyte i (by omega), hbyte (i + 1) (by omega)]
  rw [packetVerdict, frameVerdict, frameVerdict, hword 0 (by decide), hword 2 (by decide)]

/-- The outcomes of two waits, of which the second one had also datagrams of other hosts to take. -/
def SameOutcome (peer : SockAddr) : Option ℤ × TftpSession × Net → Option ℤ × TftpSession × Net → Prop
  | (none, _, _), (r, _, _) => r = none
  | (some rd, s₁, n₁), (r, s₂, n₂) => r = some rd ∧ (∃ f, s₂ = { s₁ with frame := f }) ∧ n₁.errno = n₂.errno ∧
      n₁.events = n₂.events.filter (fromPeer peer) ∧ Harmless peer s₁.block n₂.events ∧
      (0 ≤ rd → tftpHeaderSize ≤ rd.toNat ∧
        Mem.read s₁.frame tftpHeaderSize (rd.toNat - 4) = Mem.read s₂.frame tftpHeaderSize (rd.toNat - 4))

variable {peer : SockAddr}

/-- The wait passes over the datagrams of other hosts. -/
theorem readPacketLoop_sameOutcome (evs : List NetEvent) (s : TftpSession) (f : ℕ → UInt8) (e1 e2 : ℤ)
    (sent1 sent2 : List Sent) (h : Harmless peer s.block evs) :
    SameOutcome peer (tftpReadPacketLoop (evs.filter (fromPeer peer)) e1 sent1 s)
      (tftpReadPacketLoop evs e2 sent2 { s with frame := f }) := by
  have herr : ¬ 0 ≤ tftpErr := by decide
  induction evs generalizing s f e1 e2 sent1 sent2 with
  | nil => rfl
  | cons ev evs ih =>
    cases ev with
    | timeout e => exact ⟨rfl, ⟨f, rfl⟩, rfl, rfl, h, fun h => absurd h (by decide)⟩
    | selectError e | recvError e => exact ⟨rfl, ⟨f, rfl⟩, rfl, rfl, h, fun h => absurd h herr⟩
    | datagram src dg sendOk e =>
      obtain ⟨hlen, hforeign, hrest⟩ := h
      have hdg : dg ≠ [] := by rintro rfl; cases hlen
      by_cases hsrc : src = peer
      · have hfilter : (NetEvent.datagram src dg sendOk e :: evs).filter (fromPeer peer) =
            .datagram src dg sendOk e :: evs.filter (fromPeer peer) := by simp [fromPeer, hsrc]
        rw [hfilter]
        simp only [tftpReadPacketLoop, if_neg (rlen_ne_zero hdg), checkPacket, frameVerdict_recvFrame hlen]
        cases hv : packetVerdict s.block dg with
        | err =>
          simp only [hv, reduceCtorEq, if_false] at hrest
          exact ⟨rfl, ⟨_, rfl⟩, rfl, rfl, hrest, fun h => absurd h herr⟩
        | dup =>
          simp only [hv, reduceCtorEq, if_false] at hrest
          cases sendOk with
          | false => exact ⟨rfl, ⟨_, rfl⟩, rfl, rfl, hrest, fun h => absurd h herr⟩
          | true => exact ih { s with frame := recvFrame s.frame dg } _ _ _ _ _ hrest
        | ok =>
          simp only [hv, if_true] at hrest
          cases sendOk with
          | false => exact ⟨rfl, ⟨_, rfl⟩, rfl, rfl, hrest, fun h => absurd h herr⟩
          | true =>
            have hle : tftpHeaderSize ≤ min dg.length tftpPacketSize := by
              simp only [tftpHeaderSize, tftpPacketSize] at hlen ⊢; omega
            refine ⟨rfl, ⟨_, rfl⟩, rfl, rfl, hrest, fun _ => ⟨hle, ?_⟩⟩
            exact (read_recvFrame s.frame dg _ hle).trans (read_recvFrame f dg _ hle).symm
      · obtain ⟨rfl, hdup⟩ := hforeign hsrc
        have hfilter : (NetEvent.datagram src dg true e :: evs).filter (fromPeer peer) =
          evs.filter (fromPeer peer) := by
          simp [fromPeer, hsrc]
        have hv : frameVerdict s.block (recvFrame f dg) = .dup := (frameVerdict_recvFrame hlen _ _).trans hdup
        simp only [hdup, reduceCtorEq, if_false] at hrest
        rw [hfilter, readPacketLoop_dup (s := { s with frame := f }) hdg hv]
        exact ih s _ _ _ _ _ hrest

/-- Two sessions that differ in what others have written into the frame. -/
structure SameSession (peer : SockAddr) (s₁ : TftpSession) (n₁ : Net) (s₂ : TftpSession) (n₂ : Net) : Prop where
  inv : FrameInv s₁
  same : ∃ f, s₂ = { s₁ with frame := f }
  pending : pending s₁ = pending s₂
  events : n₁.events = n₂.events.filter (fromPeer peer)
  harmless : Harmless peer s₁.block n₂.events

variable (ram : TftpSession → ℕ → UInt8) {s₁ s₂ : TftpSession} {n₁ n₂ : Net}

/-- Two runs of one session read alike. -/
theorem tftpRead_sameSession (h : SameSession peer s₁ n₁ s₂ n₂) (size : ℕ) :
    (∃ t1 m1 t2 m2, tftpRead ram s₁ n₁ size = (none, t1, m1) ∧ tftpRead ram s₂ n₂ size = (none, t2, m2)) ∨
      ∃ bytes t1 m1 t2 m2, tftpRead ram s₁ n₁ size = (some bytes, t1, m1) ∧
        tftpRead ram s₂ n₂ size = (some bytes, t2, m2) ∧ SameSession peer t1 m1 t2 m2 := by
  obtain ⟨⟨ha, hv⟩, ⟨f, rfl⟩, hp, he, hh⟩ := h
  by_cases hlt : s₁.bytesAvailable < size
  · by_cases hx : s₁.isXferEnd = true
    · right
      refine ⟨_, _, _, _, (sendPendingAck { s₁ with frame := f } n₂).2, tftpRead_end ram hv ha hlt hx, ?_,
        ⟨⟨Nat.le_refl _, Nat.zero_le _⟩, ⟨f, rfl⟩, rfl, ?_, ?_⟩⟩
      · rw [hp]
        exact tftpRead_end ram hv ha hlt hx
      · simpa using he
      · simpa using hh
    · rw [Bool.not_eq_true] at hx
      have hout := readPacketLoop_sameOutcome n₂.events { s₁ with pendingAck := false } f (sendPendingAck s₁ n₁).2.errno
        (sendPendingAck { s₁ with frame := f } n₂).2.errno (sendPendingAck s₁ n₁).2.sent
        (sendPendingAck { s₁ with frame := f } n₂).2.sent hh
      rw [← he] at hout
      have hq1 := tftpReadPacket_sendPendingAck (s := s₁) (n := n₁) { s₁ with pendingAck := false }
      have hq2 := tftpReadPacket_sendPendingAck (s := { s₁ with frame := f }) (n := n₂)
        { s₁ with frame := f, pendingAck := false }
      replace hout : SameOutcome peer (tftpReadPacket { s₁ with pendingAck := false } (sendPendingAck s₁ n₁).2)
          (tftpReadPacket { s₁ with frame := f, pendingAck := false }
            (sendPendingAck { s₁ with frame := f } n₂).2) := by
        rw [hq1, hq2]
        exact hout
      rcases hr1 : tftpReadPacket { s₁ with pendingAck := false } (sendPendingAck s₁ n₁).2 with ⟨_ | rd, t1, m1⟩ <;>
        rcases hr2 : tftpReadPacket { s₁ with frame := f, pendingAck := false }
          (sendPendingAck { s₁ with frame := f } n₂).2 with ⟨r, t2, m2⟩ <;>
        rw [hr1, hr2] at hout
      · obtain rfl : r = none := hout
        exact .inl ⟨_, _, _, _, tftpRead_none ram hlt hx hr1, tftpRead_none ram hlt hx hr2⟩
      · obtain ⟨rfl, ⟨f', rfl⟩, herrno, hev, hharm, hdata⟩ := hout
        right
        obtain ⟨⟨b, f1, ht⟩, hrd⟩ := readPacketLoop_some (hq1.symm.trans hr1)
        by_cases hneg : rd < 0
        · refine ⟨_, _, _, _, _, tftpRead_error ram hlt hx hneg hr1, tftpRead_error ram hlt hx hneg hr2,
            ⟨⟨Nat.zero_le _, by rw [ht]; exact hv⟩, ⟨f', by rw [herrno]⟩, rfl, hev, hharm⟩⟩
        · obtain ⟨hle, hread⟩ := hdata (Int.not_lt.mp hneg)
          simp only [tftpHeaderSize] at hle
          generalize hD : Mem.read t1.frame tftpHeaderSize (rd.toNat - 4) = D at hread
          have hDl : D.length = rd.toNat - 4 := by rw [← hD, Mem.length_read]
          have hrdD : rd = ((D.length + 4 : ℕ) : ℤ) := by omega
          rw [hrdD] at hr1 hr2
          obtain ⟨a1, ha1, h1, hpend1⟩ := tftpRead_packet ram hv ha hlt hx hr1 (by omega) (by rw [hDl]; exact hD)
          obtain ⟨a2, ha2, h2, hpend2⟩ := tftpRead_packet (s := { s₁ with frame := f }) ram hv ha hlt hx hr2 (by omega)
            (by rw [hDl]; exact hread.symm)
          rw [← hp] at h2 hpend2
          have haa : a1 = a2 := by
            have hl := congrArg List.length (hpend1.trans hpend2.symm)
            rwa [length_pending, length_pending] at hl
          subst haa
          exact ⟨_, _, _, _, _, h1, h2, ⟨⟨ha1, by simp only [afterPacket]; omega⟩, ⟨f', rfl⟩, hpend1.trans hpend2.symm,
            hev, hharm⟩⟩
  · right
    have hle := Nat.le_of_not_lt hlt
    refine ⟨_, _, _, _, (sendPendingAck { s₁ with frame := f } n₂).2, tftpRead_pending ram hv ha hle, ?_,
      ⟨⟨by simp only; omega, hv⟩, ⟨f, rfl⟩, ?_, by simpa using he, by simpa using hh⟩⟩
    · rw [hp]
      exact tftpRead_pending ram hv ha hle
    · have hdrop : ∀ g,
          pending { s₁ with pendingAck := false, bytesAvailable := s₁.bytesAvailable - size, frame := g } =
          (pending { s₁ with frame := g }).drop size := by
        intro g
        simp only [pending]
        rw [Mem.drop_read _ _ _ _ hle]
        congr 1; omega
      exact (hdrop s₁.frame).trans ((congrArg (List.drop size) hp).trans (hdrop f).symm)

theorem tftpTrace_sameSession (h : SameSession peer s₁ n₁ s₂ n₂) (sizes : List ℕ) :
    (tftpTrace ram s₁ n₁ sizes).map Prod.fst = (tftpTrace ram s₂ n₂ sizes).map Prod.fst := by
  induction sizes generalizing s₁ n₁ s₂ n₂ with
  | nil => rfl
  | cons size sizes ih =>
    obtain ⟨t1, m1, t2, m2, h1, h2⟩ | ⟨bytes, t1, m1, t2, m2, h1, h2, h'⟩ := tftpRead_sameSession ram h size
    · simp only [tftpTrace, h1, h2]
    · rw [tftpTrace_cons ram h1, tftpTrace_cons ram h2, List.map_cons, List.map_cons, ih h']

/-- **Other hosts**: two runs with the same datagrams of the host that sent the request read the same, if those of other
hosts are harmless in both. -/
theorem tftpTrace_harmless {s₀ s : TftpSession} {n₀ n : Net} {len : ℕ} {name : List UInt8}
    (hlisten : tftpListen s₀ n₀ len = (.file name, s, n))
    (hsame : n₁.events.filter (fromPeer s.addr) = n₂.events.filter (fromPeer s.addr))
    (h₁ : Harmless s.addr s.block n₁.events) (h₂ : Harmless s.addr s.block n₂.events) (sizes : List ℕ) :
    (tftpTrace ram s n₁ sizes).map Prod.fst = (tftpTrace ram s n₂ sizes).map Prod.fst := by
  have hpeer : ∀ m : Net, Harmless s.addr s.block m.events →
      (tftpTrace ram s ⟨m.events.filter (fromPeer s.addr), 0, []⟩ sizes).map Prod.fst =
        (tftpTrace ram s m sizes).map Prod.fst := by
    intro m hm
    exact tftpTrace_sameSession ram ⟨tftpListen_frameInv hlisten, ⟨s.frame, rfl⟩, rfl, rfl, hm⟩ sizes
  rw [← hpeer n₁ h₁, ← hpeer n₂ h₂, hsame]

/-- Another host sends block 0, before block 1 of the peer. -/
theorem tftpTrace_harmless_duplicate :
    (tftpTrace (fun _ _ => 0) (requested []).1 ⟨[.datagram ⟨1, 69⟩ [0, 3, 0, 1, 98] true 0], 0, []⟩ [2]).map Prod.fst =
      (tftpTrace (fun _ _ => 0) (requested []).1
        ⟨[.datagram ⟨2, 69⟩ [0, 3, 0, 0, 99] true 0, .datagram ⟨1, 69⟩ [0, 3, 0, 1, 98] true 0], 0, []⟩ [2]).map
          Prod.fst := by
  apply tftpTrace_harmless _ (requested_listen [])
  · decide
  · exact ⟨by decide, fun h => absurd rfl h, trivial⟩
  · exact ⟨by decide, fun _ => ⟨rfl, by decide⟩, by decide, fun h => absurd rfl h, trivial⟩

/-- **The flaw**: another host sends the next block. -/
theorem tftpTrace_forged :
    (tftpTrace (fun _ _ => 0) (requested []).1 ⟨[.datagram ⟨1, 69⟩ [0, 3, 0, 1, 98] true 0], 0, []⟩ [2]).map Prod.fst =
        [[98]] ∧
      (tftpTrace (fun _ _ => 0) (requested []).1
        ⟨[.datagram ⟨2, 69⟩ [0, 3, 0, 1, 99] true 0, .datagram ⟨1, 69⟩ [0, 3, 0, 1, 98] true 0], 0,
          []⟩ [2]).map Prod.fst =
        [[99]] := by
  decide

end Foreign

end Bertos
