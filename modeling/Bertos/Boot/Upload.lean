import Bertos.Boot.FlashCache
import Bertos.Boot.Main
import Bertos.Net.TftpTransfer

/-!
# Uploads

`BootInv` holds at the start and after every call of `receiveFirmware`, whatever the network does. A transfer that ends
with its short packet is stored and reported (`receiveFirmware_done`); one that fails is reported as failed only if
`errno` is not `0` then (`receiveFirmware_fail`).
-/

namespace Bertos

open List

/-- The invariant of the bootloader between two calls. -/
structure BootInv (st : Boot) : Prop where
  flash : FlashInv st.flash.blk st.dev
  size : st.flash.size = 917504

/-- The first datagram is a write request for an accepted name; `evs` follows it. -/
structure Accepted (cfg : BootCfg) (st : Boot) (dg : List UInt8) (evs : List NetEvent) : Prop where
  events : ∃ src ok e, st.net.events = .datagram src dg ok e :: evs
  nonempty : dg ≠ []
  request : frameWord (recvFrame st.server.frame dg) 0 = opWrq
  name : nameAccepted cfg (requestName (recvFrame st.server.frame dg) 100) = true

theorem flashOpen_eq (mem : ℕ → UInt8) : flashOpen ⟨mem, []⟩ = (⟨{ flashHwInit ⟨mem, []⟩ with
      buf := Mem.write mem 0 (Mem.read mem (blockAddr 0) 1024)
      blkStart := 128
      blkCnt := 896 }, 0, 917504⟩, ⟨mem, []⟩) := by
  simp [flashOpen, kblockTrim, kblockLoadPage, kblockFlush, kblockCacheDirty, kblockLoad, kblockSwLoad,
    kblockReadDirect, flashHwInit, flashStm32Vt, stm32FlashReadDirect, trimStart, flashBootSize, flashPageSize,
    kfileblockInit, fSize, blockAddr]

theorem bootInit_fields (mem : ℕ → UInt8) (net : Net) :
    (bootInit mem net).net = net ∧ (bootInit mem net).dev = ⟨mem, []⟩ ∧
      (bootInit mem net).flash.blk.currBlk = 0 ∧ (bootInit mem net).flash.blk.dirty = false := by
  rw [bootInit, flashOpen_eq]
  exact ⟨rfl, rfl, rfl, rfl⟩

theorem bootInit_inv (mem : ℕ → UInt8) (net : Net) : BootInv (bootInit mem net) := by
  have hclean := Mem.read_write_self mem 0 (Mem.read mem (blockAddr 0) 1024)
  rw [Mem.length_read] at hclean
  have hdev : DevInv ⟨mem, []⟩ := ⟨trivial, forall_mem_nil _, fun _ _ h => False.elim h⟩
  rw [bootInit, flashOpen_eq]
  exact ⟨⟨hdev, rfl, rfl, rfl, rfl, show 0 < 896 by decide, fun _ => hclean, Bool.noConfusion⟩, rfl⟩

section Receive

variable (cfg : BootCfg) (ram : TftpSession → ℕ → UInt8)

theorem kfileblockFlush_upload {P : List UInt8} {fb : KFileBlock} {d : FlashDev} (h : Upload P fb.blk d) :
    ∃ d', kfileblockFlush flashStm32Vt fb d = (true, { fb with blk := { fb.blk with dirty := false } }, d') ∧
      FlashInv { fb.blk with dirty := false } d' ∧ Mem.read d'.mem (blockAddr 0) P.length = P := by
  obtain ⟨d', hf, hinv, hr⟩ := h.flushed
  exact ⟨d', by rw [kfileblockFlush, hf], hinv, hr⟩

theorem receiveLoop_full (fuel : ℕ) {st : Boot} {bs : List UInt8} {s : TftpSession} {n : Net} {fb : KFileBlock}
    {d : FlashDev} (hr : tftpRead ram st.server st.net recvBufSize = (some bs, s, n)) (he : tftpError s = 0)
    (hw : kfileblockWrite flashStm32Vt st.flash st.dev bs = (recvBufSize, fb, d)) (hl : bs.length = recvBufSize) :
    receiveLoop ram (fuel + 1) st = receiveLoop ram fuel ⟨s, n, fb, d⟩ := by
  simp only [receiveLoop, hr, he, ne_eq, not_true_eq_false, if_false, hw, hl, if_true]

theorem receiveLoop_error (fuel : ℕ) {st : Boot} {bs : List UInt8} {s : TftpSession} {n : Net}
    (hr : tftpRead ram st.server st.net recvBufSize = (some bs, s, n)) (he : tftpError s ≠ 0) :
    receiveLoop ram (fuel + 1) st = (some false, { st with server := s, net := n }) := by
  simp only [receiveLoop, hr, he, ne_eq, not_false_eq_true, if_true]

/-- The copy loop keeps the invariant, and returns `true` only after the flush. -/
theorem receiveLoop_inv : ∀ (fuel : ℕ) (st : Boot) {P : List UInt8}, Upload P st.flash.blk st.dev →
    st.flash.seekPos = P.length → st.flash.size = 917504 →
    BootInv (receiveLoop ram fuel st).2 ∧
      ((receiveLoop ram fuel st).1 = some true → (receiveLoop ram fuel st).2.flash.blk.dirty = false)
  | 0, st, P, h, _, hsize => ⟨⟨h.toFlashInv, hsize⟩, fun h => by cases h⟩
  | fuel + 1, st, P, h, hpos, hsize => by
    rcases hr : tftpRead ram st.server st.net recvBufSize with ⟨_ | bs, s, n⟩
    · simp only [receiveLoop, hr]
      exact ⟨⟨h.toFlashInv, hsize⟩, fun h => by cases h⟩
    by_cases he : tftpError s = 0
    · obtain ⟨k, fb, d, hw, -, hup, hpos', hsize'⟩ := kfileblockWrite_upload h hpos bs
      rw [hsize] at hsize'
      by_cases hk : k = bs.length
      · subst hk
        by_cases hfull : bs.length = recvBufSize
        · rw [receiveLoop_full ram fuel hr he (hfull ▸ hw) hfull]
          exact receiveLoop_inv fuel ⟨s, n, fb, d⟩ hup (by rw [hpos']; simp) hsize'
        · obtain ⟨d', hf, hinv, -⟩ := kfileblockFlush_upload hup
          simp only [receiveLoop, hr, he, ne_eq, not_true_eq_false, if_false, hw, hfull, hf]
          exact ⟨⟨hinv, hsize'⟩, fun _ => trivial⟩
      · simp only [receiveLoop, hr, he, ne_eq, not_true_eq_false, if_false, hw, hk, not_false_eq_true, if_true]
        exact ⟨⟨hup.toFlashInv, hsize'⟩, fun h => by cases h⟩
    · rw [receiveLoop_error ram fuel hr he]
      exact ⟨⟨h.toFlashInv, hsize⟩, fun h => by cases h⟩

/-- A call of `receiveFirmware` keeps the invariant, and leaves a clean cache if it returns `true`. -/
theorem receiveFirmware_inv (st : Boot) (h : BootInv st) : BootInv (receiveFirmware cfg ram st).2 ∧
    ((receiveFirmware cfg ram st).1 = some true → (receiveFirmware cfg ram st).2.flash.blk.dirty = false) := by
  unfold receiveFirmware
  rcases tftpListen st.server st.net 100 with ⟨_ | _ | filename, s, n⟩
  · exact ⟨⟨h.flash, h.size⟩, fun h => by cases h⟩
  · exact ⟨⟨h.flash, h.size⟩, fun h => by cases h⟩
  · by_cases hn : nameAccepted cfg filename = true
    · simp only [hn, if_true]
      exact receiveLoop_inv ram _ ⟨s, n, st.flash.seekSet 0, st.dev⟩ h.flash.upload_nil rfl h.size
    · simp only [hn]
      exact ⟨⟨h.flash, h.size⟩, fun h => by cases h⟩

/-- **A complete transfer** is stored. -/
theorem receiveLoop_done : ∀ (fuel : ℕ) (st : Boot) {P R : List UInt8} {A : List ℕ},
    Stream st.server st.net.events R none A → Upload P st.flash.blk st.dev → st.flash.seekPos = P.length →
    P.length + R.length ≤ 917504 → R.length / recvBufSize < fuel →
    ∃ st', receiveLoop ram fuel st = (some true, st') ∧ Mem.read st'.dev.mem (blockAddr 0) (P ++ R).length = P ++ R
  | 0, _, _, _, _, _, _, _, _, hfuel => absurd hfuel (Nat.not_lt_zero _)
  | fuel + 1, st, P, R, A, hs, h, hpos, hlen, hfuel => by
    obtain ⟨s, n, A1, A2, hr, hs', -⟩ := tftpRead_stream ram hs recvBufSize (by decide) (.inr rfl)
    have he : tftpError s = 0 := hs'.error
    obtain ⟨k, fb, d, hw, hk, hup, hpos', -⟩ := kfileblockWrite_upload h hpos (R.take recvBufSize)
    have hl : (R.take recvBufSize).length = min recvBufSize R.length := length_take
    have hk' : k = (R.take recvBufSize).length := by rw [hl] at hk ⊢; simp only [recvBufSize] at hk ⊢; omega
    rw [hk', take_length] at hup
    by_cases hfull : recvBufSize ≤ R.length
    · rw [Nat.min_eq_left hfull] at hl
      have hloop := receiveLoop_full ram fuel hr he (by rw [hw, hk', hl]) hl
      obtain ⟨st', hl', hm⟩ := receiveLoop_done fuel ⟨s, n, fb, d⟩ hs' hup
        (by rw [hpos', hk', length_append]) (by simp; omega)
        (by simp only [recvBufSize, length_drop] at hfull hfuel ⊢; omega)
      rw [append_assoc, take_append_drop] at hm
      exact ⟨st', by rw [hloop, hl'], hm⟩
    · rw [take_of_length_le (by omega)] at hr hw hk' hup
      obtain ⟨d', hf, -, hm⟩ := kfileblockFlush_upload hup
      refine ⟨⟨s, n, { fb with blk := { fb.blk with dirty := false } }, d'⟩, ?_, hm⟩
      simp only [receiveLoop, hr, he, ne_eq, not_true_eq_false, if_false, hw, hk',
        show R.length ≠ recvBufSize by omega, hf]

/-- **A transfer that fails** with `e` left in `errno`. If the partition is full before, the call returns `false`; else
the session takes `e` as its error code, and the call returns `true` if that is `0`. -/
theorem receiveLoop_fail {e : ℤ} : ∀ (fuel : ℕ) (st : Boot) {P R : List UInt8} {A : List ℕ},
    Stream st.server st.net.events R (some e) A → Upload P st.flash.blk st.dev → st.flash.seekPos = P.length →
    (917504 - P.length) / recvBufSize < fuel →
    ∃ st', receiveLoop ram fuel st =
        (some (decide (P.length + recvBufSize * (R.length / recvBufSize) ≤ 917504 ∧ e = 0)), st') ∧
      (P.length + recvBufSize * (R.length / recvBufSize) ≤ 917504 → tftpError st'.server = e)
  | 0, _, _, _, _, _, _, _, hfuel => absurd hfuel (Nat.not_lt_zero _)
  | fuel + 1, st, P, R, A, hs, h, hpos, hfuel => by
    by_cases hfull : recvBufSize ≤ R.length
    · obtain ⟨s, n, A1, A2, hr, hs', -⟩ := tftpRead_stream ram hs recvBufSize (by decide) (.inl hfull)
      have he : tftpError s = 0 := hs'.error
      obtain ⟨k, fb, d, hw, hk, hup, hpos', -⟩ := kfileblockWrite_upload h hpos (R.take recvBufSize)
      have hl : (R.take recvBufSize).length = recvBufSize := length_take_of_le hfull
      rw [hl] at hk
      have hdiv : recvBufSize * (R.length / recvBufSize) =
          recvBufSize + recvBufSize * ((R.drop recvBufSize).length / recvBufSize) := by
        simp only [recvBufSize, length_drop] at hfull ⊢; omega
      by_cases hk' : k = recvBufSize
      · have hloop := receiveLoop_full ram fuel hr he (by rw [hw, hk']) hl
        have hp : (P ++ (R.take recvBufSize).take k).length = P.length + recvBufSize := by simp [hk', hl]
        obtain ⟨st', hl', hm⟩ := receiveLoop_fail fuel ⟨s, n, fb, d⟩ hs' hup
          (by rw [hpos', hp, hk']) (by rw [hp]; simp only [recvBufSize] at hk hk' hfuel ⊢; omega)
        rw [hp] at hl' hm
        rw [hloop, hdiv, ← Nat.add_assoc]
        exact ⟨st', hl', hm⟩
      · have hover : ¬ P.length + recvBufSize * (R.length / recvBufSize) ≤ 917504 := by
          rw [hdiv]; omega
        refine ⟨⟨tftpSetErrorMsg s (ascii "Error writing to flash".toList),
          tftpClose (tftpSetErrorMsg s (ascii "Error writing to flash".toList)) n, fb, d⟩, ?_, fun h => absurd h hover⟩
        simp only [receiveLoop, hr, he, ne_eq, not_true_eq_false, if_false, hw, hl, hk', not_false_eq_true, if_true,
          hover, false_and, decide_false]
    · obtain ⟨s, n, hr, he⟩ := tftpRead_fail ram hs recvBufSize (by decide) (by omega)
      have hdiv : R.length / recvBufSize = 0 := Nat.div_eq_of_lt (by omega)
      have hfit : P.length + recvBufSize * (R.length / recvBufSize) ≤ 917504 := by rw [hdiv]; exact h.length_le
      by_cases h0 : e = 0
      · obtain ⟨k, fb, d, hw, hk, hup, hpos', -⟩ := kfileblockWrite_upload h hpos []
        obtain ⟨d', hf, -⟩ := kfileblockFlush_upload hup
        obtain rfl : k = 0 := by simpa using hk
        refine ⟨⟨s, n, { fb with blk := { fb.blk with dirty := false } }, d'⟩, ?_, fun _ => he⟩
        simp only [receiveLoop, hr, he, h0, ne_eq, not_true_eq_false, if_false, hw, length_nil, hf, hfit, and_self,
          decide_true, show (0 : ℕ) ≠ recvBufSize by decide]
      · refine ⟨{ st with server := s, net := n }, ?_, fun _ => he⟩
        rw [receiveLoop_error ram fuel hr (he ▸ h0)]
        simp only [h0, and_false, decide_false]

variable {cfg} {st : Boot} {dg : List UInt8} {evs : List NetEvent} {F : List UInt8} {fin : Option ℤ} {A : List ℕ}

/-- An accepted request starts the copy loop with the stream of the transfer. -/
theorem Accepted.receiveFirmware_eq (ha : Accepted cfg st dg evs)
    (ht : Transfer 0 (recvFrame st.server.frame dg) evs F fin A) :
    ∃ s n, receiveFirmware cfg ram st = receiveLoop ram (st.flash.size + 1) ⟨s, n, st.flash.seekSet 0, st.dev⟩ ∧
      Stream s n.events F fin A := by
  obtain ⟨src, ok, e, hev⟩ := ha.events
  have hl : tftpListen st.server st.net 100 = (.file (requestName (recvFrame st.server.frame dg) 100),
      { resetTftpState st.server with addr := src, frame := recvFrame st.server.frame dg, pendingAck := true },
      ⟨evs, e, st.net.sent⟩) := by
    simp only [tftpListen, hev, resetTftpState, ha.request, length_eq_zero_iff, ha.nonempty, ne_eq, not_false_eq_true,
      and_self, if_true]
  refine ⟨{ resetTftpState st.server with addr := src, frame := recvFrame st.server.frame dg, pendingAck := true },
    ⟨evs, e, st.net.sent⟩, ?_, ⟨rfl, Nat.zero_le _, Nat.zero_le _, F, ?_, ?_⟩⟩
  · rw [receiveFirmware, hl]
    simp only [ha.name, if_true]
    rfl
  · simp [pending, resetTftpState]
  · simpa [resetTftpState] using ht

/-- **An accepted upload** whose last packet comes is in flash, and `receiveFirmware` says so. -/
theorem receiveFirmware_done (st : Boot) (h : BootInv st) (ha : Accepted cfg st dg evs)
    (ht : Transfer 0 (recvFrame st.server.frame dg) evs F none A) (hF : F.length ≤ maxFirmwareSize) :
    ∃ st', receiveFirmware cfg ram st = (some true, st') ∧ Mem.read st'.dev.mem flashBootSize F.length = F := by
  obtain ⟨s, n, heq, hs⟩ := ha.receiveFirmware_eq ram ht
  rw [heq, h.size]
  have hlen : ([] : List UInt8).length + F.length ≤ 917504 := by rw [length_nil, Nat.zero_add]; exact hF
  exact receiveLoop_done ram _ ⟨s, n, st.flash.seekSet 0, st.dev⟩ hs h.flash.upload_nil rfl hlen
    (by simp only [length_nil, recvBufSize] at hlen ⊢; omega)

/-- The failing `tftp_read` is reached: the full buffers before it fit into the partition. -/
def ReachesFailure (F : List UInt8) : Prop := recvBufSize * (F.length / recvBufSize) ≤ maxFirmwareSize

instance (F : List UInt8) : Decidable (ReachesFailure F) := inferInstanceAs (Decidable (_ ≤ _))

/-- **An accepted upload** that fails with `e` in `errno`. -/
theorem receiveFirmware_fail {e : ℤ} (st : Boot) (h : BootInv st) (ha : Accepted cfg st dg evs)
    (ht : Transfer 0 (recvFrame st.server.frame dg) evs F (some e) A) :
    ∃ st', receiveFirmware cfg ram st = (some (decide (ReachesFailure F ∧ e = 0)), st') ∧
      (ReachesFailure F → tftpError st'.server = e) := by
  obtain ⟨s, n, heq, hs⟩ := ha.receiveFirmware_eq ram ht
  rw [heq, h.size]
  obtain ⟨st', hl, he⟩ := receiveLoop_fail ram (917504 + 1) ⟨s, n, st.flash.seekSet 0, st.dev⟩ hs
    h.flash.upload_nil rfl (by simp only [length_nil, recvBufSize]; omega)
  simp only [length_nil, Nat.zero_add] at hl he
  exact ⟨st', hl, he⟩

end Receive

/-! ## Runs of uploads -/

section Uploads

variable (cfg : BootCfg) (ram : TftpSession → ℕ → UInt8)

/-- The bootloader with the datagrams and failures its socket will meet. -/
def Boot.feed (st : Boot) (evs : List NetEvent) : Boot := { st with net := { st.net with events := evs } }

theorem bootInit_feed (mem : ℕ → UInt8) (net : Net) (evs : List NetEvent) :
    (bootInit mem net).feed evs = bootInit mem { net with events := evs } := by
  rw [bootInit, bootInit, flashOpen_eq]
  rfl

/-- Calls of `receiveFirmware`, each fed with its own events. -/
def uploads : Boot → List (List NetEvent) → Boot
  | st, [] => st
  | st, evs :: calls => uploads (receiveFirmware cfg ram (st.feed evs)).2 calls

/-- Any calls keep the invariant. -/
theorem uploads_inv : ∀ (calls : List (List NetEvent)) {st : Boot}, BootInv st → BootInv (uploads cfg ram st calls)
  | [], _, h => h
  | evs :: calls, st, h => uploads_inv calls (receiveFirmware_inv cfg ram (st.feed evs) ⟨h.flash, h.size⟩).1

/-- **Uploads**: after any calls of `receiveFirmware`, nothing below `TRIM_START` has been erased or programmed, every
half-word was programmed after an erasure of its sector and not since, and the next accepted upload of a file that fits
and whose last packet comes is reported and in flash. -/
theorem uploads_reach_flash (mem : ℕ → UInt8) (net : Net) (calls : List (List NetEvent)) :
    (∀ op ∈ (uploads cfg ram (bootInit mem net) calls).dev.log, op.inPartition) ∧
    (∀ newer a older, (uploads cfg ram (bootInit mem net) calls).dev.log = newer ++ .program a :: older →
      ∃ since s before, older = since ++ .erase s :: before ∧ InSector s a ∧ FlashOp.program a ∉ since) ∧
    ∀ evs dg evs' F A, Accepted cfg ((uploads cfg ram (bootInit mem net) calls).feed evs) dg evs' →
      Transfer 0 (recvFrame (uploads cfg ram (bootInit mem net) calls).server.frame dg) evs' F none A →
      F.length ≤ maxFirmwareSize →
      ∃ st', receiveFirmware cfg ram ((uploads cfg ram (bootInit mem net) calls).feed evs) = (some true, st') ∧
        Mem.read st'.dev.mem flashBootSize F.length = F := by
  have h := uploads_inv cfg ram calls (bootInit_inv mem net)
  refine ⟨h.flash.part, fun newer a older heq => ?_, fun evs dg evs' F A ha ht hF => ?_⟩
  · have hl := h.flash.legal
    rw [heq] at hl
    exact hl.fresh.exists_erase
  · exact receiveFirmware_done ram (Boot.feed _ evs) ⟨h.flash, h.size⟩ ha ht hF

end Uploads

/-- The request `kk348.czf`. -/
def kk348Request : List UInt8 := [0, 2] ++ kk348Cfg.filename ++ [0]

/-- A fresh bootloader takes the request `kk348.czf`. -/
theorem accepted_kk348 (mem : ℕ → UInt8) (net : Net) (src : SockAddr) (evs : List NetEvent) :
    Accepted kk348Cfg ((bootInit mem net).feed (.datagram src kk348Request true 0 :: evs)) kk348Request evs := by
  refine ⟨⟨src, true, 0, rfl⟩, cons_ne_nil _ _, ?_, ?_⟩
  · show frameWord (recvFrame tftpInit.frame kk348Request) 0 = opWrq
    decide
  · show nameAccepted kk348Cfg (requestName (recvFrame tftpInit.frame kk348Request) 100) = true
    decide +kernel

theorem uploads_reach_flash_three_bytes :
    ∃ st', receiveFirmware kk348Cfg (fun _ _ => 0) ((bootInit (fun _ => 0xFF) ⟨[], 0, []⟩).feed
        [.datagram ⟨1, 69⟩ kk348Request true 0, .datagram ⟨1, 69⟩ [0, 3, 0, 1, 10, 20, 30] true 0]) = (some true, st') ∧
      Mem.read st'.dev.mem flashBootSize 3 = [10, 20, 30] := by
  have ht : Transfer 0 (recvFrame tftpInit.frame kk348Request) [.datagram ⟨1, 69⟩ [0, 3, 0, 1, 10, 20, 30] true 0]
      [10, 20, 30] none [1] := .last (by decide) (by decide) (by decide)
  exact (uploads_reach_flash kk348Cfg (fun _ _ => 0) (fun _ => 0xFF) ⟨[], 0, []⟩ []).2.2 _ _ _ _ _
    (accepted_kk348 _ _ _ _) ht (by decide)

/-! ## Transfers that end early -/

/-- **Early ends**: after any calls of `receiveFirmware`, an accepted session ends before its short packet, with `e`
left in `errno`. It is reported as failed, with a non-zero error code if the failing `tftp_read` is reached, exactly
when `e` is not `0` in that case. -/
theorem early_end_reported_iff (cfg : BootCfg) (ram : TftpSession → ℕ → UInt8) (mem : ℕ → UInt8) (net : Net)
    (calls : List (List NetEvent)) (events : List NetEvent) (dg : List UInt8) (evs : List NetEvent) (F : List UInt8)
    (e : ℤ) (A : List ℕ) (ha : Accepted cfg ((uploads cfg ram (bootInit mem net) calls).feed events) dg evs)
    (ht : Transfer 0 (recvFrame (uploads cfg ram (bootInit mem net) calls).server.frame dg) evs F (some e) A) :
    ((receiveFirmware cfg ram ((uploads cfg ram (bootInit mem net) calls).feed events)).1 = some false ∧
        (ReachesFailure F →
          tftpError (receiveFirmware cfg ram ((uploads cfg ram (bootInit mem net) calls).feed events)).2.server ≠ 0)) ↔
      (ReachesFailure F → e ≠ 0) := by
  have h := uploads_inv cfg ram calls (bootInit_inv mem net)
  obtain ⟨st', heq, he⟩ := receiveFirmware_fail ram (Boot.feed _ events) ⟨h.flash, h.size⟩ ha ht
  rw [heq]
  constructor
  · rintro ⟨-, h₁⟩ hr
    rw [← he hr]; exact h₁ hr
  · intro h₁
    refine ⟨?_, fun hr => by rw [he hr]; exact h₁ hr⟩
    have hn : ¬ (ReachesFailure F ∧ e = 0) := fun hr => h₁ hr.1 hr.2
    simp [hn]

/-- A session that breaks off after its request, with `ETIMEDOUT`. -/
theorem early_end_reported_errno :
    (receiveFirmware kk348Cfg (fun _ _ => 0) ((bootInit (fun _ => 0xFF) ⟨[], 0, []⟩).feed
      [.datagram ⟨1, 69⟩ kk348Request true 0, .timeout 110])).1 = some false :=
  ((early_end_reported_iff kk348Cfg (fun _ _ => 0) (fun _ => 0xFF) ⟨[], 0, []⟩ [] _ _ _ [] 110 []
    (accepted_kk348 _ _ _ _) .timeout).mpr fun _ => by decide).1

/-- The same session when `lwip_select` leaves `0` in `errno`: the empty upload is taken for a complete one. -/
theorem early_end_taken_for_complete :
    Transfer 0 (recvFrame tftpInit.frame kk348Request) [.timeout 0] [] (some 0) [] ∧ ReachesFailure [] ∧
    (receiveFirmware kk348Cfg (fun _ _ => 0) ((bootInit (fun _ => 0xFF) ⟨[], 0, []⟩).feed
      [.datagram ⟨1, 69⟩ kk348Request true 0, .timeout 0])).1 = some true ∧
    tftpError (receiveFirmware kk348Cfg (fun _ _ => 0) ((bootInit (fun _ => 0xFF) ⟨[], 0, []⟩).feed
      [.datagram ⟨1, 69⟩ kk348Request true 0, .timeout 0])).2.server = 0 := by
  obtain ⟨st', heq, he⟩ := receiveFirmware_fail (F := []) (e := 0) (A := []) (fun _ _ => 0)
    ((bootInit (fun _ => 0xFF) ⟨[], 0, []⟩).feed [.datagram ⟨1, 69⟩ kk348Request true 0, .timeout 0])
    ⟨(bootInit_inv _ _).flash, (bootInit_inv _ _).size⟩ (accepted_kk348 _ _ _ _) .timeout
  have hr : ReachesFailure [] := by decide
  refine ⟨.timeout, hr, ?_, ?_⟩
  · rw [heq]; simp [hr]
  · rw [heq]; exact he hr

end Bertos
