import Bertos.Net.Tftp

/-!
# What a TFTP session delivers

`Transfer b fr evs F fin A` follows the packets the session takes out of `evs` when `b` blocks are accepted and `fr` is
in the frame: `F` is the data of the blocks it accepts, `A` the numbers it acknowledges, and `fin` how it ends, with a
short packet (`none`) or with a failure that leaves a value in `errno` (`some e`). `Stream s evs R fin A` adds the
bytes of the current frame that are not read yet; a read returns the next bytes of the stream (`tftpRead_stream`,
`tftpRead_fail`).
-/

namespace Bertos

open List Mem

/-- The packets a session takes, up to the one that ends it. -/
inductive Transfer : ℕ → (ℕ → UInt8) → List NetEvent → List UInt8 → Option ℤ → List ℕ → Prop
  | dup {b fr src dg e evs F fin A} (hdg : dg ≠ []) (hv : frameVerdict b (recvFrame fr dg) = .dup)
      (h : Transfer b (recvFrame fr dg) evs F fin A) :
      Transfer b fr (.datagram src dg true e :: evs) F fin (b :: A)
  | full {b fr src dg e evs F fin A} (hlen : tftpPacketSize ≤ dg.length)
      (hv : frameVerdict b (recvFrame fr dg) = .ok) (h : Transfer (b + 1) (recvFrame fr dg) evs F fin A) :
      Transfer b fr (.datagram src dg true e :: evs) ((dg.take tftpPacketSize).drop tftpHeaderSize ++ F) fin
        ((b + 1) :: A)
  | last {b fr src dg e evs} (hlo : tftpHeaderSize ≤ dg.length) (hhi : dg.length < tftpPacketSize)
      (hv : frameVerdict b (recvFrame fr dg) = .ok) :
      Transfer b fr (.datagram src dg true e :: evs) (dg.drop tftpHeaderSize) none [b + 1]
  | timeout {b fr e evs} : Transfer b fr (.timeout e :: evs) [] (some e) []
  | selectError {b fr e evs} : Transfer b fr (.selectError e :: evs) [] (some e) []
  | recvError {b fr e evs} : Transfer b fr (.recvError e :: evs) [] (some e) []
  | empty {b fr src sendOk e evs} : Transfer b fr (.datagram src [] sendOk e :: evs) [] (some e) []
  | refused {b fr src dg sendOk e evs} (hdg : dg ≠ []) (hv : frameVerdict b (recvFrame fr dg) = .err) :
      Transfer b fr (.datagram src dg sendOk e :: evs) [] (some e) []
  | unsent {b fr src dg e evs} (hdg : dg ≠ []) (hv : frameVerdict b (recvFrame fr dg) ≠ .err) :
      Transfer b fr (.datagram src dg false e :: evs) [] (some e) []

/-! ## Taking one packet -/

section Packet

variable {s : TftpSession}

theorem rlen_ne_zero {dg : List UInt8} (h : dg ≠ []) : min dg.length tftpPacketSize ≠ 0 := by
  have := length_pos_iff.mpr h
  simp only [tftpPacketSize]; omega

variable {fr : ℕ → UInt8}

theorem block_lt_of_ok {b : ℕ} (h : frameVerdict b fr = .ok) : b + 1 < 65536 := by
  have hw : frameWord fr 2 < 65536 := by
    have h0 := (fr 2).toNat_lt
    have h1 := (fr (2 + 1)).toNat_lt
    simp only [frameWord]; omega
  simp only [frameVerdict] at h
  split at h
  · split at h
    · cases h
    · split_ifs at h
      omega
  · split at h <;> cases h

theorem checkPacket_ok (h : frameVerdict s.block s.frame = .ok) :
    checkPacket s true = (.ok, { s with block := s.block + 1 }, [.ack s.addr (s.block + 1)]) := by
  simp [checkPacket, h, Nat.mod_eq_of_lt (block_lt_of_ok h)]

theorem checkPacket_dup (h : frameVerdict s.block s.frame = .dup) :
    checkPacket s true = (.dup, s, [.ack s.addr s.block]) := by
  simp [checkPacket, h]

theorem checkPacket_err (sendOk : Bool) (h : frameVerdict s.block s.frame = .err) :
    checkPacket s sendOk = (.err, s, []) := by
  simp [checkPacket, h]

theorem checkPacket_unsent (h : frameVerdict s.block s.frame ≠ .err) :
    ∃ s', checkPacket s false = (.err, s', []) := by
  unfold checkPacket
  cases hv : frameVerdict s.block s.frame with
  | err => exact absurd hv h
  | ok | dup => exact ⟨_, rfl⟩

theorem read_recvFrame (fr : ℕ → UInt8) (dg : List UInt8) (k : ℕ) (hk : k ≤ min dg.length tftpPacketSize) :
    Mem.read (recvFrame fr dg) k (min dg.length tftpPacketSize - k) = (dg.take tftpPacketSize).drop k := by
  have h := read_write_self fr 0 (dg.take tftpPacketSize)
  rw [length_take, Nat.min_comm] at h
  have h' := drop_read (recvFrame fr dg) 0 _ k hk
  rw [Nat.zero_add] at h'
  rw [← h']
  exact congrArg _ h

theorem readPacketLoop_dup {src : SockAddr} {dg : List UInt8} (hdg : dg ≠ [])
    (hv : frameVerdict s.block (recvFrame s.frame dg) = .dup) (e e0 : ℤ) (evs : List NetEvent) (sent : List Sent) :
    tftpReadPacketLoop (.datagram src dg true e :: evs) e0 sent s =
      tftpReadPacketLoop evs e (sent ++ [.ack s.addr s.block]) { s with frame := recvFrame s.frame dg } := by
  have hc := checkPacket_dup (s := { s with frame := recvFrame s.frame dg }) hv
  simp only [tftpReadPacketLoop, if_neg (rlen_ne_zero hdg), hc]

theorem readPacketLoop_ok {src : SockAddr} {dg : List UInt8} (hdg : dg ≠ [])
    (hv : frameVerdict s.block (recvFrame s.frame dg) = .ok) (e e0 : ℤ) (evs : List NetEvent) (sent : List Sent) :
    tftpReadPacketLoop (.datagram src dg true e :: evs) e0 sent s =
      (some ((min dg.length tftpPacketSize : ℕ) : ℤ), { s with block := s.block + 1, frame := recvFrame s.frame dg },
        ⟨evs, e, sent ++ [.ack s.addr (s.block + 1)]⟩) := by
  have hc := checkPacket_ok (s := { s with frame := recvFrame s.frame dg }) hv
  simp only [tftpReadPacketLoop, if_neg (rlen_ne_zero hdg), hc]

variable {evs : List NetEvent} {F : List UInt8} {fin : Option ℤ} {A : List ℕ}

/-- The next packet of data comes, a full one or the last. -/
theorem readPacket_data {b : ℕ} (h : Transfer b fr evs F fin A) (hn : 512 ≤ F.length ∨ fin = none) (hb : s.block = b)
    (hf : s.frame = fr) (e0 : ℤ) (sent : List Sent) :
    ∃ fr' evs' e' A1 A2, tftpReadPacketLoop evs e0 sent s = (some (((F.take 512).length + 4 : ℕ) : ℤ),
        { s with block := b + 1, frame := fr' }, ⟨evs', e', sent ++ A1.map (.ack s.addr)⟩) ∧
      read fr' 4 (F.take 512).length = F.take 512 ∧ A = A1 ++ A2 ∧ evs' = evs.drop A1.length ∧
      if (F.take 512).length < 512 then F.drop 512 = [] ∧ fin = none ∧ A2 = []
      else Transfer (b + 1) fr' evs' (F.drop 512) fin A2 := by
  induction h generalizing s e0 sent with
  | @dup b fr src dg e evs F fin A hdg hv h ih =>
    subst hb hf
    obtain ⟨fr', evs', e', A1, A2, hl, hr, rfl, hd, ht⟩ :=
      ih hn (s := { s with frame := recvFrame s.frame dg }) rfl rfl e (sent ++ [.ack s.addr s.block])
    refine ⟨fr', evs', e', s.block :: A1, A2, ?_, hr, rfl, hd, ht⟩
    rw [readPacketLoop_dup hdg hv, hl]
    simp
  | @full b fr src dg e evs F fin A hlen hv h ih =>
    subst hb hf
    have hmin : min dg.length tftpPacketSize = 516 := by simp only [tftpPacketSize] at hlen ⊢; omega
    have hpay : ((dg.take tftpPacketSize).drop tftpHeaderSize).length = 512 := by
      rw [length_drop, length_take, Nat.min_comm, hmin]; rfl
    have hdg : dg ≠ [] := by rintro rfl; cases hlen
    rw [take_left' hpay, drop_left' hpay, hpay]
    refine ⟨recvFrame s.frame dg, evs, e, [s.block + 1], A, ?_, ?_, rfl, rfl, h⟩
    · rw [readPacketLoop_ok hdg hv, hmin]; rfl
    · rw [← read_recvFrame s.frame dg tftpHeaderSize (by rw [hmin]; decide), hmin]; rfl
  | @last b fr src dg e evs hlo hhi hv =>
    subst hb hf
    have hmin : min dg.length tftpPacketSize = dg.length := Nat.min_eq_left (Nat.le_of_lt hhi)
    have hdg : dg ≠ [] := by rintro rfl; cases hlo
    have hlen : (dg.drop tftpHeaderSize).length + 4 = dg.length := by
      simp only [tftpHeaderSize, length_drop] at hlo ⊢; omega
    have hshort : (dg.drop tftpHeaderSize).length < 512 := by simp only [tftpPacketSize] at hhi; omega
    have hread := read_recvFrame s.frame dg tftpHeaderSize (by rw [hmin]; exact hlo)
    rw [hmin, take_of_length_le (Nat.le_of_lt hhi)] at hread
    rw [take_of_length_le (Nat.le_of_lt hshort), drop_of_length_le (Nat.le_of_lt hshort), hlen]
    refine ⟨recvFrame s.frame dg, evs, e, [s.block + 1], [], ?_, ?_, rfl, rfl, by simp only [if_pos hshort, and_self]⟩
    · rw [readPacketLoop_ok hdg hv, hmin]; rfl
    · rw [length_drop]; exact hread
  | timeout | selectError | recvError | empty | refused | unsent => simp at hn

/-- A failure is to come: the call fails and leaves the value of `errno`. -/
theorem readPacket_fail {b : ℕ} {e : ℤ} (h : Transfer b fr evs F fin A) (hn : fin = some e) (hb : s.block = b)
    (hf : s.frame = fr) (hF : F.length < 512) (e0 : ℤ) (sent : List Sent) :
    ∃ rd s' n', tftpReadPacketLoop evs e0 sent s = (some rd, s', n') ∧ rd < 0 ∧ n'.errno = e := by
  induction h generalizing s e0 sent with
  | @dup b fr src dg e' evs F fin A hdg hv h ih =>
    subst hb hf
    obtain ⟨rd, s', n', hl, hr⟩ :=
      ih hn (s := { s with frame := recvFrame s.frame dg }) rfl rfl hF e' (sent ++ [.ack s.addr s.block])
    exact ⟨rd, s', n', by rw [readPacketLoop_dup hdg hv, hl], hr⟩
  | full hlen hv h ih =>
    simp only [tftpPacketSize, tftpHeaderSize, length_append, length_drop, length_take] at hlen hF
    omega
  | last => cases hn
  | timeout | selectError | recvError => cases hn; exact ⟨_, _, _, rfl, by decide, rfl⟩
  | empty =>
    cases hn
    exact ⟨_, _, _, by simp only [tftpReadPacketLoop, length_nil, Nat.zero_min, ↓reduceIte]; rfl, by decide, rfl⟩
  | @refused b fr src dg sendOk _ evs hdg hv =>
    cases hn
    subst hb hf
    have hc := checkPacket_err (s := { s with frame := recvFrame s.frame dg }) sendOk hv
    exact ⟨_, _, _, by simp only [tftpReadPacketLoop, if_neg (rlen_ne_zero hdg), hc]; rfl, by decide, rfl⟩
  | @unsent b fr src dg _ evs hdg hv =>
    cases hn
    subst hb hf
    obtain ⟨s', hs⟩ := checkPacket_unsent (s := { s with frame := recvFrame s.frame dg }) hv
    exact ⟨_, _, _, by simp only [tftpReadPacketLoop, if_neg (rlen_ne_zero hdg), hs]; rfl, by decide, rfl⟩

end Packet

/-! ## Reading the stream -/

/-- The bytes of the frame that are not read yet. -/
def pending (s : TftpSession) : List UInt8 :=
  Mem.read s.frame (tftpHeaderSize + (s.validData - s.bytesAvailable)) s.bytesAvailable

/-- What the session will deliver: the rest of the frame, then the transfer. -/
structure Stream (s : TftpSession) (evs : List NetEvent) (R : List UInt8) (fin : Option ℤ) (A : List ℕ) : Prop where
  error : s.error = 0
  valid : s.validData ≤ 512
  avail : s.bytesAvailable ≤ s.validData
  rest : ∃ F, R = pending s ++ F ∧
    if s.isXferEnd then F = [] ∧ fin = none ∧ A = [] else Transfer s.block s.frame evs F fin A

section Stream

variable (ram : TftpSession → ℕ → UInt8) {s : TftpSession} {n : Net} {R : List UInt8} {fin : Option ℤ} {A : List ℕ}

/-- Inside the frame, `memcpy` reads the frame. -/
theorem frameData_eq {offset size : ℕ} (h : offset + size ≤ 512) :
    frameData ram s offset size = Mem.read s.frame (tftpHeaderSize + offset) size := by
  refine read_congr fun i _ hi => if_pos ?_
  simp only [tftpHeaderSize, tftpPacketSize] at hi ⊢; omega

/-- The session after the acknowledgement of the request, if one is due. -/
theorem sendPendingAck_fst : (sendPendingAck s n).1 = { s with pendingAck := false } := by
  unfold sendPendingAck
  split
  · rfl
  · cases s; simp_all

@[simp] theorem sendPendingAck_events : (sendPendingAck s n).2.events = n.events := by
  unfold sendPendingAck; split <;> rfl

theorem tftpReadPacket_sendPendingAck (t : TftpSession) : tftpReadPacket t (sendPendingAck s n).2 =
    tftpReadPacketLoop n.events (sendPendingAck s n).2.errno (sendPendingAck s n).2.sent t := by
  rw [tftpReadPacket, sendPendingAck_events]

/-- The acknowledgement comes first. -/
theorem tftpRead_ack (size : ℕ) :
    tftpRead ram s n size = tftpRead ram { s with pendingAck := false } (sendPendingAck s n).2 size := by
  have e := sendPendingAck_fst (s := s) (n := n)
  unfold tftpRead
  rcases hp : sendPendingAck s n with ⟨t, m⟩
  rw [hp] at e
  subst e
  rfl

theorem length_pending : (pending s).length = s.bytesAvailable := by simp [pending]

variable {size : ℕ}

theorem tftpRead_pending (hv : s.validData ≤ 512) (ha : s.bytesAvailable ≤ s.validData) (h : size ≤ s.bytesAvailable) :
    tftpRead ram s n size = (some ((pending s).take size),
      { s with pendingAck := false, bytesAvailable := s.bytesAvailable - size }, (sendPendingAck s n).2) := by
  rw [tftpRead_ack]
  simp only [tftpRead, sendPendingAck, Bool.false_eq_true, if_false, if_neg (Nat.not_lt.mpr h)]
  rw [frameData_eq ram (by omega), pending, take_read _ _ _ _ h]

theorem tftpRead_end (hv : s.validData ≤ 512) (ha : s.bytesAvailable ≤ s.validData) (h : s.bytesAvailable < size)
    (hx : s.isXferEnd = true) : tftpRead ram s n size = (some (pending s),
      { s with pendingAck := false, bytesAvailable := 0, validData := 0 }, (sendPendingAck s n).2) := by
  rw [tftpRead_ack]
  simp only [tftpRead, sendPendingAck, Bool.false_eq_true, if_false, if_pos h, hx, if_true]
  rw [frameData_eq ram (by omega)]
  rfl

variable {s' : TftpSession}

/-- The bytes at hand are not enough, and the wait for a packet ends. -/
theorem tftpRead_wait {rd : ℤ} {n' : Net} (h : s.bytesAvailable < size) (hx : s.isXferEnd = false)
    (hp : tftpReadPacket { s with pendingAck := false } (sendPendingAck s n).2 = (some rd, s', n')) :
    tftpRead ram s n size = if rd < 0 then (some [], { s' with bytesAvailable := 0, error := n'.errno }, n') else
        let avail := (rd.toNat + 4294967296 - tftpHeaderSize) % 4294967296
        let res := min avail (size - s.bytesAvailable)
        (some (frameData ram { s with pendingAck := false } (s.validData - s.bytesAvailable) s.bytesAvailable ++
            frameData ram s' 0 res),
          { s' with isXferEnd := decide (rd < tftpPacketSize), bytesAvailable := avail - res, validData := avail },
            n') := by
  rw [tftpRead_ack]
  simp only [hx] at hp
  simp only [tftpRead, sendPendingAck, Bool.false_eq_true, if_false, if_pos h, hx] at hp ⊢
  rw [hp]

/-- The session when `v` bytes of data have come and `a` of them are left. -/
def afterPacket (s : TftpSession) (v a : ℕ) : TftpSession :=
  { s with isXferEnd := decide (v < 512), bytesAvailable := a, validData := v }

theorem pending_afterPacket {v r : ℕ} (hr : r ≤ v) :
    pending (afterPacket s v (v - r)) = (Mem.read s.frame tftpHeaderSize v).drop r := by
  rw [drop_read _ _ _ _ hr]
  simp only [pending, afterPacket, Nat.sub_sub_self hr]

/-- The bytes at hand are not enough, and a packet with the data `D` comes. -/
theorem tftpRead_packet {n' : Net} {D : List UInt8} (hv : s.validData ≤ 512)
    (ha : s.bytesAvailable ≤ s.validData) (h : s.bytesAvailable < size) (hx : s.isXferEnd = false)
    (hp : tftpReadPacket { s with pendingAck := false } (sendPendingAck s n).2 =
      (some ((D.length + 4 : ℕ) : ℤ), s', n'))
    (hD : D.length ≤ 512) (hr : read s'.frame tftpHeaderSize D.length = D) :
    ∃ a ≤ D.length, tftpRead ram s n size = (some ((pending s ++ D).take size), afterPacket s' D.length a, n') ∧
      pending (afterPacket s' D.length a) = (pending s ++ D).drop size := by
  have hmod : (D.length + 4 + 4294967296 - tftpHeaderSize) % 4294967296 = D.length := by
    simp only [tftpHeaderSize]; omega
  have hend : ((D.length + 4 : ℕ) : ℤ) < (tftpPacketSize : ℤ) ↔ D.length < 512 := by simp only [tftpPacketSize]; omega
  have htake : (pending s ++ D).take size = pending s ++ D.take (size - s.bytesAvailable) := by
    rw [take_append, length_pending, take_of_length_le (by rw [length_pending]; omega)]
  have hdrop : (pending s ++ D).drop size = D.drop (size - s.bytesAvailable) := by
    rw [drop_append, length_pending, drop_of_length_le (by rw [length_pending]; omega), nil_append]
  rw [htake, hdrop]
  refine ⟨D.length - min D.length (size - s.bytesAvailable), Nat.sub_le _ _, ?_, ?_⟩
  · rw [tftpRead_wait ram h hx hp, if_neg (show ¬ ((D.length + 4 : ℕ) : ℤ) < 0 by omega)]
    simp only [Int.toNat_natCast, hmod, hend]
    rw [frameData_eq ram (by omega), frameData_eq ram (by omega), Nat.add_zero,
      ← take_read _ _ D.length _ (Nat.min_le_left _ _), hr, Nat.min_comm, ← take_eq_take_min]
    rfl
  · rw [pending_afterPacket (Nat.min_le_left _ _), hr, Nat.min_comm, ← drop_eq_drop_min]

theorem tftpRead_error {rd : ℤ} {n' : Net} (h : s.bytesAvailable < size) (hx : s.isXferEnd = false)
    (hrd : rd < 0) (hp : tftpReadPacket { s with pendingAck := false } (sendPendingAck s n).2 = (some rd, s', n')) :
    tftpRead ram s n size = (some [], { s' with bytesAvailable := 0, error := n'.errno }, n') := by
  rw [tftpRead_wait ram h hx hp, if_pos hrd]

theorem Transfer.nil_of_fail {b : ℕ} {fr : ℕ → UInt8} {evs : List NetEvent} {F : List UInt8} {e : ℤ}
    (h : Transfer b fr evs F fin A) (hn : fin = some e) (hF : F.length < 512) : F = [] := by
  induction h with
  | dup _ _ _ ih => exact ih hn hF
  | full hlen _ _ _ =>
    simp only [tftpPacketSize, tftpHeaderSize, length_append, length_drop, length_take] at hlen hF
    omega
  | last => cases hn
  | timeout | selectError | recvError | empty | refused | unsent => rfl

/-- **Reading**: a read of at most 512 bytes that no failure precedes returns the next bytes of the stream. -/
theorem tftpRead_stream (h : Stream s n.events R fin A) (size : ℕ) (hsize : size ≤ 512)
    (hR : size ≤ R.length ∨ fin = none) :
    ∃ s' n' A1 A2, tftpRead ram s n size = (some (R.take size), s', n') ∧ Stream s' n'.events (R.drop size) fin A2 ∧
      A = A1 ++ A2 ∧ n'.events = n.events.drop A1.length ∧ s'.pendingAck = false ∧ s'.addr = s.addr ∧
      n'.sent = (sendPendingAck s n).2.sent ++ A1.map (.ack s.addr) := by
  obtain ⟨F, rfl, hF⟩ := h.rest
  have hv := h.valid
  have ha := h.avail
  by_cases hlt : s.bytesAvailable < size
  · cases hx : s.isXferEnd with
    | true =>
      obtain ⟨rfl, rfl, rfl⟩ : F = [] ∧ fin = none ∧ A = [] := by simpa [hx] using hF
      rw [append_nil, tftpRead_end ram hv ha hlt hx, take_of_length_le (by rw [length_pending]; omega),
        drop_of_length_le (by rw [length_pending]; omega)]
      exact ⟨_, _, [], [], rfl, ⟨h.error, Nat.zero_le _, Nat.le_refl _, [], rfl, by simp [hx]⟩, rfl, by simp, rfl, rfl,
        by simp⟩
    | false =>
      replace hF : Transfer s.block s.frame n.events F fin A := by simpa [hx] using hF
      have hdata : 512 ≤ F.length ∨ fin = none := by
        by_contra hcon
        obtain ⟨e, hf⟩ := Option.ne_none_iff_exists'.mp (not_or.mp hcon).2
        obtain rfl := hF.nil_of_fail hf (by omega)
        simp [hf, length_pending] at hR
        omega
      obtain ⟨fr', evs', e', A1, A2, hl, hr, rfl, hd, ht⟩ := readPacket_data (s := { s with pendingAck := false }) hF
        hdata rfl rfl (sendPendingAck s n).2.errno (sendPendingAck s n).2.sent
      have hD : (F.take 512).length ≤ 512 := length_take_le _ _
      obtain ⟨a, ha', hrd, hpd⟩ := tftpRead_packet ram hv ha hlt hx ((tftpReadPacket_sendPendingAck _).trans hl) hD hr
      have hcut : (pending s ++ F).take size = (pending s ++ F.take 512).take size ∧
          (pending s ++ F).drop size = (pending s ++ F.take 512).drop size ++ F.drop 512 := by
        by_cases hlen : 512 ≤ F.length
        · have hle : size ≤ (pending s ++ F.take 512).length := by
            rw [length_append, length_take_of_le hlen]; omega
          rw [show pending s ++ F = (pending s ++ F.take 512) ++ F.drop 512 by simp]
          exact ⟨take_append_of_le_length hle, drop_append_of_le_length hle⟩
        · have hle : F.length ≤ 512 := by omega
          simp [take_of_length_le hle, drop_of_length_le hle]
      rw [hcut.1, hcut.2, ← hpd, hrd]
      refine ⟨_, _, A1, A2, rfl, ⟨h.error, hD, ha', F.drop 512, rfl, ?_⟩, rfl, hd, rfl, rfl, rfl⟩
      simpa only [afterPacket, decide_eq_true_eq] using ht
  · have hle : size ≤ (pending s).length := by rw [length_pending]; omega
    have hpd : pending { s with pendingAck := false, bytesAvailable := s.bytesAvailable - size } =
        (pending s).drop size := by
      simp only [pending]
      rw [drop_read _ _ _ _ (by omega)]
      congr 1; omega
    rw [take_append_of_le_length hle, drop_append_of_le_length hle, tftpRead_pending ram hv ha (by omega),
      ← hpd]
    exact ⟨_, _, [], A, rfl, ⟨h.error, hv, by simp only; omega, F, rfl, by simpa using hF⟩, rfl, by simp, rfl, rfl,
      by simp⟩

/-- **Failing**: a read that meets the failure returns nothing, and the session takes `errno` as its error code. -/
theorem tftpRead_fail {e : ℤ} (h : Stream s n.events R (some e) A) (size : ℕ) (hsize : size ≤ 512)
    (hR : R.length < size) :
    ∃ s' n', tftpRead ram s n size = (some [], s', n') ∧ tftpError s' = e := by
  obtain ⟨F, rfl, hF⟩ := h.rest
  rw [length_append, length_pending] at hR
  cases hx : s.isXferEnd with
  | true => simp [hx] at hF
  | false =>
    replace hF : Transfer s.block s.frame n.events F (some e) A := by simpa [hx] using hF
    obtain ⟨rd, s', n', hl, hrd, he⟩ := readPacket_fail (s := { s with pendingAck := false }) hF rfl rfl rfl (by omega)
      (sendPendingAck s n).2.errno (sendPendingAck s n).2.sent
    rw [tftpRead_error ram (by omega) hx hrd ((tftpReadPacket_sendPendingAck _).trans hl)]
    exact ⟨_, _, rfl, he⟩

end Stream

end Bertos
