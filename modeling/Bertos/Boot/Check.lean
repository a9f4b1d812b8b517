import Bertos.Boot.Upload
import Bertos.Net.TftpDelivery

/-!
# The check before the jump

`crcCheckOk` checks the partition as it is read through the cache (`crcCheckOk_view`). With a clean cache this is what
is in flash, so `main` starts an image that is stored and passes the check (`main_starts_stored_image`). An upload that
breaks off leaves its last block in the cache, and the check that follows may pass on an image that is not in flash
(`main_starts_cached_image`).
-/

namespace Bertos

open List Mem

/-- A firmware that passes the check is stored at address `a`: a size word, a word with the CRC, and the image. -/
def ImageOk (cfg : BootCfg) (m : ℕ → UInt8) (a : ℕ) : Prop :=
  minFirmwareSize ≤ leNat (Mem.read m a 4) ∧ leNat (Mem.read m a 4) ≤ maxFirmwareSize ∧
    ∃ tag ∈ acceptedTags cfg, crc32 (Mem.read m (a + 8) (leNat (Mem.read m a 4))) (crc32 tag 0) =
      UInt32.ofNat (leNat (Mem.read m (a + 4) 4))

section Check

variable {cfg : BootCfg} {d : FlashDev}

theorem map_crc32_nil (crcs : List UInt32) : crcs.map (crc32 []) = crcs := by
  rw [show crc32 [] = id from funext crc32_nil, map_id]

/-- The CRC loop goes over the view; it does not end if the partition does first. -/
theorem crcLoop_view : ∀ (fuel size : ℕ) (crcs : List UInt32) (fb : KFileBlock), FlashInv fb.blk d →
    fb.seekPos ≤ 917504 → size ≤ fuel →
    ∃ pos, crcLoop fuel size crcs fb d = (if fb.seekPos + size ≤ 917504 then
        some (crcs.map (crc32 (Mem.read (view fb.blk d) fb.seekPos size))) else none, { fb with seekPos := pos }, d)
  | 0, size, crcs, fb, h, hpos, hfuel => by
    obtain rfl : size = 0 := by omega
    exact ⟨fb.seekPos, by simp [crcLoop, hpos, map_crc32_nil]⟩
  | fuel + 1, size, crcs, fb, h, hpos, hfuel => by
    by_cases hs : size = 0
    · subst hs
      exact ⟨fb.seekPos, by simp [crcLoop, hpos, map_crc32_nil]⟩
    have hr := kfileblockRead_view fb h (min size tftpPacketSize)
    generalize hn : min (min size tftpPacketSize) (917504 - fb.seekPos) = n at hr
    rw [crcLoop, if_neg hs, hr]
    simp only [length_read]
    simp only [tftpPacketSize] at hn
    by_cases h0 : n = 0
    · rw [if_pos h0, if_neg (by omega)]
      exact ⟨_, rfl⟩
    · obtain ⟨pos, hl⟩ := crcLoop_view fuel (size - n)
        (crcs.map (crc32 (read (view fb.blk d) fb.seekPos n))) { fb with seekPos := fb.seekPos + n } h
          (by simp only; omega) (by omega)
      refine ⟨pos, ?_⟩
      rw [if_neg h0, hl]
      simp only [show fb.seekPos + n + (size - n) = fb.seekPos + size by omega]
      congr 1
      split
      · rw [map_map]
        congr 2
        funext c
        rw [Function.comp_apply, ← crc32_append, ← read_add, show n + (size - n) = size by omega]
      · rfl

variable {st : Boot}

/-- The two words of the header. -/
theorem kfileblockRead_header (h : BootInv st) :
    kfileblockRead flashStm32Vt (st.flash.seekSet 0) st.dev 4 =
        (Mem.read (view st.flash.blk st.dev) 0 4, { st.flash with seekPos := 4 }, st.dev) ∧
      kfileblockRead flashStm32Vt { st.flash with seekPos := 4 } st.dev 4 =
        (read (view st.flash.blk st.dev) 4 4, { st.flash with seekPos := 8 }, st.dev) :=
  ⟨kfileblockRead_view (st.flash.seekSet 0) h.flash 4, kfileblockRead_view { st.flash with seekPos := 4 } h.flash 4⟩

/-- **The check** is made on the view. -/
theorem crcCheckOk_view (cfg : BootCfg) (st : Boot) (h : BootInv st) :
    ∃ r pos, crcCheckOk cfg st = (r, { st with flash := { st.flash with seekPos := pos } }) ∧
      (r.isSome ↔ ¬ (maxFirmwareSize - 8 < leNat (Mem.read (view st.flash.blk st.dev) 0 4) ∧
        leNat (Mem.read (view st.flash.blk st.dev) 0 4) ≤ maxFirmwareSize)) ∧
      (r = some true → ImageOk cfg (view st.flash.blk st.dev) 0) ∧
      (ImageOk cfg (view st.flash.blk st.dev) 0 → leNat (read (view st.flash.blk st.dev) 0 4) + 8 ≤ 917504 →
        r = some true) := by
  obtain ⟨h1, h2⟩ := kfileblockRead_header h
  simp only [crcCheckOk, h1, h2, ImageOk, Nat.zero_add]
  generalize leNat (read (view st.flash.blk st.dev) 0 4) = size
  rw [show maxFirmwareSize = 917504 from rfl, show minFirmwareSize = 8192 from rfl]
  split
  · rename_i hbad
    exact ⟨_, _, rfl, iff_of_true rfl (by omega), (fun h => by cases h), fun hok _ => by omega⟩
  rename_i hgood
  obtain ⟨pos, hl⟩ := crcLoop_view size size ((acceptedTags cfg).map (crc32 · 0))
    { st.flash with seekPos := 8 } h.flash (show 8 ≤ 917504 by decide) (Nat.le_refl _)
  simp only [hl]
  by_cases hfit : 8 + size ≤ 917504
  · simp only [if_pos hfit]
    refine ⟨_, pos, rfl, iff_of_true rfl (by omega), ?_, ?_⟩
    · intro hmem
      simp only [Option.some.injEq, decide_eq_true_eq, map_map, mem_map, Function.comp_apply] at hmem
      exact ⟨by omega, by omega, hmem⟩
    · rintro ⟨-, -, hmem⟩ -
      simpa using hmem
  · simp only [if_neg hfit]
    exact ⟨_, pos, rfl, iff_of_false Bool.noConfusion (by omega), (fun h => by cases h), fun _ _ => by omega⟩

/-- After any number of turns, the bytes to go are those that are not read, and nothing is read behind the partition. -/
theorem crcTurn_iterate (n size : ℕ) (crcs : List UInt32) (fb : KFileBlock) (h : FlashInv fb.blk d)
    (hpos : fb.seekPos ≤ 917504) :
    ∃ size' crcs' pos, crcTurn^[n] (size, crcs, fb, d) = (size', crcs', { fb with seekPos := pos }, d) ∧
      pos + size' = fb.seekPos + size ∧ pos ≤ 917504 ∧ (fb.seekPos + size ≤ 917504 → size' ≤ size - n) := by
  induction n with
  | zero => exact ⟨size, crcs, fb.seekPos, rfl, rfl, hpos, fun _ => Nat.le_refl _⟩
  | succ n ih =>
    obtain ⟨size', crcs', pos, hn, hsum, hle, hfit⟩ := ih
    have hr := kfileblockRead_view { fb with seekPos := pos } h (min size' tftpPacketSize)
    rw [Function.iterate_succ_apply', hn]
    simp only [crcTurn, hr, length_read]
    generalize hk : min (min size' tftpPacketSize) (917504 - pos) = k
    simp only [tftpPacketSize] at hk
    refine ⟨size' - k, _, pos + k, rfl, by omega, by omega, fun hin => ?_⟩
    have := hfit hin
    omega

/-- The check of the image ends unless the size word is one of the last eight the bound lets through. -/
theorem crcCheckEnds_size (cfg : BootCfg) (h : BootInv st) :
    CrcCheckEnds cfg st ↔ ¬ (maxFirmwareSize - 8 < leNat (Mem.read (view st.flash.blk st.dev) 0 4) ∧
      leNat (Mem.read (view st.flash.blk st.dev) 0 4) ≤ maxFirmwareSize) := by
  obtain ⟨h1, h2⟩ := kfileblockRead_header h
  simp only [CrcCheckEnds, h1, h2]
  generalize leNat (read (view st.flash.blk st.dev) 0 4) = size
  have hturns := fun n => crcTurn_iterate n size ((acceptedTags cfg).map (crc32 · 0)) { st.flash with seekPos := 8 }
    h.flash (show 8 ≤ 917504 by decide)
  -- the loop ends exactly if the image does not reach behind the partition
  have hend : (∃ n, (crcTurn^[n] (size, (acceptedTags cfg).map (crc32 · 0), { st.flash with seekPos := 8 },
      st.dev)).1 = 0) ↔ 8 + size ≤ 917504 := by
    constructor
    · rintro ⟨n, hn⟩
      obtain ⟨size', crcs', pos, heq, hsum, hle, -⟩ := hturns n
      rw [heq] at hn
      simp only at hn hsum
      omega
    · intro hfit
      obtain ⟨size', crcs', pos, heq, -, -, hdone⟩ := hturns size
      have := hdone hfit
      exact ⟨size, by rw [heq]; simp only; omega⟩
  rw [hend, show maxFirmwareSize = 917504 from rfl, show minFirmwareSize = 8192 from rfl]
  omega

/-- **The check ends**, unless the size that is stored fits the partition only without its header. -/
theorem crcCheckEnds_iff (cfg : BootCfg) (st : Boot) (h : BootInv st) :
    (CrcCheckEnds cfg st ↔ ¬ (maxFirmwareSize - 8 < leNat (Mem.read (view st.flash.blk st.dev) 0 4) ∧
        leNat (Mem.read (view st.flash.blk st.dev) 0 4) ≤ maxFirmwareSize)) ∧
      (CrcCheckEnds cfg st ↔ (crcCheckOk cfg st).1.isSome) := by
  obtain ⟨r, pos, hc, hr, -⟩ := crcCheckOk_view cfg st h
  rw [hc]
  exact ⟨crcCheckEnds_size cfg h, (crcCheckEnds_size cfg h).trans hr.symm⟩

theorem read_view_clean (h : BootInv st) (hc : st.flash.blk.dirty = false) (a n : ℕ) :
    Mem.read (view st.flash.blk st.dev) a n = Mem.read st.dev.mem (flashBootSize + a) n := by
  refine read_eq_of_forall (length_read _ _ _) fun i hi => ?_
  rw [getElem?_read _ _ _ hi, view_eq_mem (h.flash.clean hc), Nat.add_assoc]
  rfl

/-- The size word that the check reads after a reset. -/
theorem bootInit_size (mem : ℕ → UInt8) (net : Net) :
    Mem.read (view (bootInit mem net).flash.blk (bootInit mem net).dev) 0 4 = Mem.read mem flashBootSize 4 := by
  obtain ⟨-, hdev, -, hclean⟩ := bootInit_fields mem net
  rw [read_view_clean (bootInit_inv mem net) hclean, hdev, Nat.add_zero]

/-- An image of 16 KB, which the loop reads to its end. -/
theorem crcCheckEnds_iff_image :
    CrcCheckEnds kk348Cfg (bootInit (fun a => if a = flashBootSize + 1 then 0x40 else 0) ⟨[], 0, []⟩) := by
  rw [(crcCheckEnds_iff kk348Cfg _ (bootInit_inv _ _)).1, bootInit_size]
  decide

/-- **The flaw**: the size that is stored is that of the whole partition. -/
theorem crcCheckEnds_fails :
    ¬ CrcCheckEnds kk348Cfg (bootInit (fun a => if a = flashBootSize + 2 then 0x0E else 0) ⟨[], 0, []⟩) := by
  rw [crcCheckEnds_size kk348Cfg (bootInit_inv _ _), bootInit_size]
  decide

theorem imageOk_of_clean (h : BootInv st) (hc : st.flash.blk.dirty = false)
    (hi : ImageOk cfg (view st.flash.blk st.dev) 0) : ImageOk cfg st.dev.mem flashBootSize := by
  simp only [ImageOk, read_view_clean h hc, Nat.zero_add, Nat.add_zero] at hi ⊢
  exact hi

/-- The check keeps the invariant, and with a clean cache a firmware that passes it is in flash. -/
theorem crcCheckOk_clean (cfg : BootCfg) (h : BootInv st) :
    ∃ r st', crcCheckOk cfg st = (r, st') ∧ BootInv st' ∧
      (st.flash.blk.dirty = false → r = some true → ImageOk cfg st'.dev.mem flashBootSize) := by
  obtain ⟨r, pos, hc, -, hok, -⟩ := crcCheckOk_view cfg st h
  refine ⟨r, _, hc, ⟨h.flash, h.size⟩, fun hd hr => ?_⟩
  have hi := imageOk_of_clean h hd (hok hr)
  exact hi

end Check

/-! ## Runs of `main` -/

section Main

variable (cfg : BootCfg) (ram : TftpSession → ℕ → UInt8)

/-- However many turns it takes, the loop starts only an image that passes the check. -/
theorem mainLoop_imageOk : ∀ (fuel : ℕ) {st st' : Boot}, BootInv st → mainLoop cfg ram fuel st = .startApp st' →
    ImageOk cfg st'.dev.mem flashBootSize
  | 0, _, _, _, hm => by cases hm
  | fuel + 1, st, st', h, hm => by
    obtain ⟨hinv, hclean⟩ := receiveFirmware_inv cfg ram st h
    rcases hr : receiveFirmware cfg ram st with ⟨_ | _ | _, st1⟩
    · simp only [mainLoop, hr] at hm; cases hm
    · simp only [mainLoop, hr] at hm
      simp only [hr] at hinv
      exact mainLoop_imageOk fuel hinv hm
    · simp only [hr] at hinv hclean
      obtain ⟨c, st2, hc, hinv2, hok⟩ := crcCheckOk_clean cfg hinv
      simp only [mainLoop, hr, hc] at hm
      rcases c with _ | _ | _
      · cases hm
      · exact mainLoop_imageOk fuel hinv2 hm
      · cases hm
        exact hok (hclean trivial) rfl

/-- **The jump**: if the cache is clean when the first check of `main` reads through it, then `main` starts only an
image that is in flash and passes the check. -/
theorem main_starts_stored_image (mem : ℕ → UInt8) (net : Net) (st : Boot)
    (hclean : kblockCacheDirty (receiveFirmware cfg ram (bootInit mem net)).2.flash.blk = false)
    (hm : main cfg ram (bootInit mem net) = .startApp st) : ImageOk cfg st.dev.mem flashBootSize := by
  have hinv := (receiveFirmware_inv cfg ram _ (bootInit_inv mem net)).1
  rcases hr : receiveFirmware cfg ram (bootInit mem net) with ⟨r, st₁⟩
  simp only [hr] at hinv hclean
  have hc : st₁.flash.blk.dirty = false := by simpa [kblockCacheDirty, hinv.flash.buffered] using hclean
  obtain ⟨c, st₂, hchk, hinv₂, hok⟩ := crcCheckOk_clean cfg hinv
  rcases r with _ | r
  · simp only [main, hr] at hm; cases hm
  · simp only [main, hr, hchk] at hm
    rcases c with _ | _ | _
    · cases hm
    · exact mainLoop_imageOk cfg ram _ hinv₂ hm
    · cases hm
      exact hok hc rfl

theorem receiveFirmware_timeout (st : Boot) (e : ℤ) (evs : List NetEvent) (h : st.net.events = .timeout e :: evs) :
    ∃ s n, receiveFirmware cfg ram st = (some false, ⟨s, n, st.flash.seekSet 0, st.dev⟩) := by
  simp only [receiveFirmware, tftpListen, h]
  exact ⟨_, _, rfl⟩

/-- The first check of `main` follows the first upload, whatever that returned. -/
theorem main_eq_startApp {st0 st st' : Boot} {r : Bool} (hr : receiveFirmware cfg ram st0 = (some r, st))
    (hc : crcCheckOk cfg st = (some true, st')) : main cfg ram st0 = .startApp st' := by
  simp only [main, hr, hc]

end Main

/-! ## An image that is only in the cache -/

/-- An upload that breaks off after its first packet, with `ETIMEDOUT`. -/
def brokenUpload (D : List UInt8) : List NetEvent :=
  [.datagram ⟨1, 69⟩ kk348Request true 0, .datagram ⟨1, 69⟩ (dataPacket D 1) true 0, .timeout 110]

/-- The broken upload leaves one buffer in the cache, and does not touch the flash. -/
theorem receiveFirmware_broken (ram : TftpSession → ℕ → UInt8) (mem : ℕ → UInt8) (D : List UInt8)
    (hD : D.length = 512) :
    ∃ st, receiveFirmware kk348Cfg ram (bootInit mem ⟨brokenUpload D, 0, []⟩) = (some false, st) ∧ BootInv st ∧
      view st.flash.blk st.dev = Mem.write (fun i => mem (flashBootSize + i)) 0 (D.take 300) ∧ st.dev.mem = mem := by
  have hinv := bootInit_inv mem ⟨brokenUpload D, 0, []⟩
  have ha := accepted_kk348 mem ⟨brokenUpload D, 0, []⟩ ⟨1, 69⟩ (brokenUpload D).tail
  obtain ⟨-, hdev, hcurr, hclean⟩ := bootInit_fields mem ⟨brokenUpload D, 0, []⟩
  rw [bootInit_feed] at ha
  change Accepted kk348Cfg (bootInit mem ⟨brokenUpload D, 0, []⟩) kk348Request (brokenUpload D).tail at ha
  generalize bootInit mem ⟨brokenUpload D, 0, []⟩ = st0 at *
  have ht : Transfer 0 (recvFrame st0.server.frame kk348Request) (brokenUpload D).tail D (some 110) [1] := by
    have hlen : (dataPacket D 1).length = tftpPacketSize := by rw [length_dataPacket, hD]; rfl
    have hd : ((dataPacket D 1).take tftpPacketSize).drop tftpHeaderSize ++ [] = D := by
      rw [← hlen, take_length, dataPacket_data, append_nil]
      exact take_of_length_le (Nat.le_of_eq hD)
    have h : Transfer 0 (recvFrame st0.server.frame kk348Request) (brokenUpload D).tail
        (((dataPacket D 1).take tftpPacketSize).drop tftpHeaderSize ++ []) (some 110) [1] :=
      .full (Nat.le_of_eq hlen.symm) (frameVerdict_next (by decide)) .timeout
    rwa [hd] at h
  obtain ⟨s, n, heq, hs⟩ := ha.receiveFirmware_eq ram ht
  have hinv' := (receiveFirmware_inv kk348Cfg ram st0 hinv).1
  -- the first buffer is stored in the cache, the second one never fills up
  obtain ⟨s1, n1, A1, A2, hr1, hs1, -⟩ := tftpRead_stream ram hs recvBufSize (by decide)
    (.inl (by rw [hD]; decide))
  obtain ⟨s2, n2, hr2, he2⟩ := tftpRead_fail ram hs1 recvBufSize (by decide)
    (by rw [length_drop, hD]; decide)
  have he1 : tftpError s1 = 0 := hs1.error
  have hl : (D.take recvBufSize).length = 300 := length_take_of_le (by rw [hD]; decide)
  have hpos : (st0.flash.seekSet 0).seekPos = 0 := rfl
  obtain ⟨fb, hw, hfb⟩ : ∃ fb, kfileblockWrite flashStm32Vt (st0.flash.seekSet 0) st0.dev (D.take recvBufSize) =
      (recvBufSize, fb, st0.dev) ∧
      fb.blk = { st0.flash.blk with dirty := true, buf := write st0.flash.blk.buf 0 (D.take recvBufSize) } := by
    have hinv0 : FlashInv (st0.flash.seekSet 0).blk st0.dev := hinv.flash
    have hw := kfileblockWrite_cached hinv0 (D.take recvBufSize) (ne_nil_of_length_pos (by rw [hl]; decide))
      (by rw [hpos]; exact hcurr.symm)
      (by rw [hl, hpos]; decide)
    rw [hl] at hw
    exact ⟨_, hw, rfl⟩
  have hloop : receiveFirmware kk348Cfg ram st0 = (some false, ⟨s2, n2, fb, st0.dev⟩) := by
    have hend : receiveLoop ram (917503 + 1) ⟨s1, n1, fb, st0.dev⟩ = (some false, ⟨s2, n2, fb, st0.dev⟩) :=
      receiveLoop_error ram 917503 hr2 (by rw [he2]; decide)
    rw [heq, hinv.size, receiveLoop_full ram 917504 hr1 he1 hw hl, hend]
  rw [hloop] at hinv' ⊢
  refine ⟨_, rfl, hinv', ?_, by rw [hdev]⟩
  have hv := view_write (b := st0.flash.blk) (d := st0.dev) (D.take recvBufSize) 0 (by rw [hl]; decide)
  have hmem : view st0.flash.blk st0.dev = fun i => mem (flashBootSize + i) := by
    funext i
    rw [view_eq_mem (hinv.flash.clean hclean), hdev]
    rfl
  simp only [hfb]
  rw [hv, hmem, hcurr]
  rfl

section Forged

def leBytes (c : UInt32) : List UInt8 :=
  [UInt8.ofNat c.toNat, UInt8.ofNat (c.toNat / 256), UInt8.ofNat (c.toNat / 65536), UInt8.ofNat (c.toNat / 16777216)]

theorem leNat_leBytes (c : UInt32) : leNat (leBytes c) = c.toNat := by
  have h := c.toNat_lt
  simp only [leBytes, leNat, UInt8.toNat_ofNat']
  omega

theorem imageOk_of_header {m : ℕ → UInt8} {c : UInt32} (h : Mem.read m 0 8 = [0, 0x20, 0, 0] ++ leBytes c)
    (hc : c = crc32 (Mem.read m 8 8192) (crc32 kk348Cfg.tag 0)) :
    ImageOk kk348Cfg m 0 ∧ leNat (Mem.read m 0 4) + 8 ≤ 917504 := by
  have h1 : read m 0 4 = [0, 0x20, 0, 0] := by rw [← take_read m 0 8 4 (by decide), h]; rfl
  have h2 : read m 4 4 = leBytes c := by
    have h' := drop_read m 0 8 4 (by decide)
    rw [h] at h'
    exact h'.symm
  have h3 : leNat [0, 0x20, 0, 0] = 8192 := rfl
  simp only [ImageOk, Nat.zero_add, h1, h2, h3, leNat_leBytes, UInt32.ofNat_toNat]
  exact ⟨⟨by decide, by decide, kk348Cfg.tag, by simp [acceptedTags], hc.symm⟩, by decide⟩

/-- The CRC of the 8192 bytes behind the header, when the first 300 bytes of an upload of zeros stand before an erased
flash. -/
def forgedCrc : UInt32 :=
  crc32 (Mem.read (Mem.write (fun _ => 0xFF) 8 (List.replicate 292 0)) 8 8192) (crc32 kk348Cfg.tag 0)

/-- The data of the first packet: a header with the size 8192, then zeros. -/
def forgedData : List UInt8 := ([0, 0x20, 0, 0] ++ leBytes forgedCrc) ++ List.replicate 504 0

theorem length_forgedData : forgedData.length = 512 := by
  simp only [forgedData, leBytes, length_append, length_cons, length_nil, length_replicate]

theorem imageOk_forged : ImageOk kk348Cfg (Mem.write (fun _ => 0xFF) 0 (forgedData.take 300)) 0 ∧
    leNat (Mem.read (Mem.write (fun _ => 0xFF) 0 (forgedData.take 300)) 0 4) + 8 ≤ 917504 := by
  have hl : ([0, 0x20, 0, 0] ++ leBytes forgedCrc).length = 8 := rfl
  have htake : forgedData.take 300 = ([0, 0x20, 0, 0] ++ leBytes forgedCrc) ++ replicate 292 0 := by
    rw [forgedData, take_append, take_of_length_le (by rw [hl]; decide), hl, take_replicate]
    rfl
  have hm := write_append (fun _ => (0xFF : UInt8)) 0 ([0, 0x20, 0, 0] ++ leBytes forgedCrc) (replicate 292 0)
  rw [hl, Nat.zero_add] at hm
  rw [htake, ← hm]
  refine imageOk_of_header (c := forgedCrc) ?_ ?_
  · rw [read_write_of_disjoint _ _ _ (by decide), ← hl, read_write_self]
  · have hbody : read (write (write (fun _ => 0xFF) 0 ([0, 0x20, 0, 0] ++ leBytes forgedCrc)) 8
        (replicate 292 0)) 8 8192 = read (write (fun _ => 0xFF) 8 (replicate 292 0)) 8 8192 :=
      read_congr fun i hi _ => write_apply_congr _ 8 _ (write_of_not_mem _ _ _ (by rw [hl]; omega))
    rw [hbody, forgedCrc]

/-- **The flaw**: the flash is erased, the first upload breaks off after one packet, and `main` starts the image that it
sees through the cache. -/
theorem main_starts_cached_image :
    ∃ st, main kk348Cfg (fun _ _ => 0) (bootInit (fun _ => 0xFF) ⟨brokenUpload forgedData, 0, []⟩) = .startApp st ∧
      ¬ ImageOk kk348Cfg st.dev.mem flashBootSize := by
  obtain ⟨st, hr, hinv, hview, hmem⟩ := receiveFirmware_broken (fun _ _ => 0) (fun _ => 0xFF)
    forgedData length_forgedData
  obtain ⟨r, pos, hc, -, -, hok⟩ := crcCheckOk_view kk348Cfg st hinv
  obtain rfl : r = some true := by
    rw [hview] at hok
    exact hok imageOk_forged.1 imageOk_forged.2
  refine ⟨{ st with flash := { st.flash with seekPos := pos } }, main_eq_startApp _ _ hr hc, ?_⟩
  rintro ⟨-, hmax, -⟩
  rw [hmem] at hmax
  have hsize : leNat (read (fun _ => (0xFF : UInt8)) flashBootSize 4) = 0xFFFFFFFF := by decide
  rw [hsize, show maxFirmwareSize = 917504 from rfl] at hmax
  omega

def erasedCrc : UInt32 := crc32 (Mem.read (fun _ => 0xFF) 8 8192) (crc32 kk348Cfg.tag 0)

/-- A flash whose partition holds a header, with the size 8192, before erased bytes. -/
def storedFlash (a : ℕ) : UInt8 :=
  Mem.write (fun _ => 0xFF) 0 ([0, 0x20, 0, 0] ++ leBytes erasedCrc) (a - flashBootSize)

theorem main_starts_stored_image_erased :
    ∃ st, main kk348Cfg (fun _ _ => 0) (bootInit storedFlash ⟨[.timeout 0], 0, []⟩) = .startApp st ∧
      ImageOk kk348Cfg st.dev.mem flashBootSize := by
  have hinv := bootInit_inv storedFlash ⟨[.timeout 0], 0, []⟩
  obtain ⟨hnet, hdev, -, hclean⟩ := bootInit_fields storedFlash ⟨[.timeout 0], 0, []⟩
  have hstored := main_starts_stored_image kk348Cfg (fun _ _ => 0) storedFlash ⟨[.timeout 0], 0, []⟩
  generalize bootInit storedFlash ⟨[.timeout 0], 0, []⟩ = st₀ at *
  obtain ⟨s, n, hr⟩ := receiveFirmware_timeout kk348Cfg (fun _ _ => 0) st₀ 0 [] (by rw [hnet])
  obtain ⟨r, pos, hc, -, -, hok⟩ := crcCheckOk_view kk348Cfg ⟨s, n, st₀.flash.seekSet 0, st₀.dev⟩
    ⟨hinv.flash, hinv.size⟩
  have hview : view st₀.flash.blk st₀.dev = write (fun _ => 0xFF) 0 ([0, 0x20, 0, 0] ++ leBytes erasedCrc) := by
    funext i
    rw [view_eq_mem (hinv.flash.clean hclean), hdev]
    simp only [storedFlash, show blockAddr 0 = flashBootSize from rfl, Nat.add_sub_cancel_left]
  have hl : ([0, 0x20, 0, 0] ++ leBytes erasedCrc).length = 8 := rfl
  have himage : ImageOk kk348Cfg (write (fun _ => 0xFF) 0 ([0, 0x20, 0, 0] ++ leBytes erasedCrc)) 0 ∧
      leNat (read (write (fun _ => 0xFF) 0 ([0, 0x20, 0, 0] ++ leBytes erasedCrc)) 0 4) + 8 ≤ 917504 := by
    refine imageOk_of_header (c := erasedCrc) ?_ ?_
    · rw [← hl, read_write_self]
    · rw [read_write_of_disjoint _ _ _ (by rw [hl]; decide), erasedCrc]
  obtain rfl : r = some true := by
    change ImageOk kk348Cfg (view st₀.flash.blk st₀.dev) 0 →
      leNat (read (view st₀.flash.blk st₀.dev) 0 4) + 8 ≤ 917504 → _ at hok
    rw [hview] at hok
    exact hok himage.1 himage.2
  have hm := main_eq_startApp kk348Cfg (fun _ _ => 0) hr hc
  refine ⟨_, hm, hstored _ ?_ hm⟩
  rw [hr]
  simp [kblockCacheDirty, KFileBlock.seekSet, hclean]

end Forged

end Bertos
