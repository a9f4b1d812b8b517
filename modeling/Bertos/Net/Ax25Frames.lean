import Bertos.Net.Ax25

/-!
# What AX.25 sends, AX.25 receives

- `ax25SendVia_eq`: the bytes on the wire, and the CRC that the assertion at the end of `ax25_sendVia` tests;
- `ax25Poll_sendVia`: a receiver without a frame that waits for its flag calls the hook once, with the path and the
  payload that were sent;
- `hook_inside_iff`: what the hook gets lies inside the frame exactly if the address ends there;
- `hook_outside_frame`: an address without an end, and what an earlier frame left behind it.
-/

namespace Bertos

open List Mem Receiver

/-! ## On the wire -/

def ax25Special (c : UInt8) : Bool := decide (c = hdlcFlag ∨ c = hdlcReset ∨ c = ax25Esc)

section Send

variable (ctx : AX25Ctx)

theorem ax25Puts_eq (bs : List UInt8) : ax25Puts ctx bs =
    ({ ctx with crcOut := crcCcitt ctx.crcOut bs }, stuff ax25Special ax25Esc bs) := by
  induction bs generalizing ctx with
  | nil => rfl
  | cons c bs ih =>
    simp only [ax25Puts, ax25Putchar, ih, stuff_cons, ax25Special, decide_eq_true_eq]
    rfl

theorem ax25Putchar_eq (c : UInt8) : ax25Putchar ctx c =
    ({ ctx with crcOut := crcCcitt ctx.crcOut [c] }, stuff ax25Special ax25Esc [c]) := by
  rw [← ax25Puts_eq]
  simp [ax25Puts]

def addrBytes : List AX25Call → List UInt8
  | [] => []
  | addr :: path => callBytes addr path.isEmpty ++ addrBytes path

theorem ax25SendPath_eq (path : List AX25Call) : ax25SendPath ctx path =
    ({ ctx with crcOut := crcCcitt ctx.crcOut (addrBytes path) }, stuff ax25Special ax25Esc (addrBytes path)) := by
  induction path generalizing ctx with
  | nil => rfl
  | cons addr path ih =>
    simp only [ax25SendPath, ax25SendCall, ax25Puts_eq, ih, addrBytes, stuff_append, crcCcitt_append]

variable (path : List AX25Call) (data : List UInt8)

def frameBody : List UInt8 := addrBytes path ++ [ax25CtrlUi, ax25PidNolayer3] ++ data

/-- The bytes of the frame, before the escapes. -/
def frameText : List UInt8 := frameBody path data ++ crcTail (crcCcitt crcCcittInitVal (frameBody path data))

theorem crc_frameText : crcCcitt crcCcittInitVal (frameText path data) = ax25CrcCorrect := by
  rw [frameText, crcCcitt_append, crcCcitt_tail]
  rfl

/-- **What is sent.** -/
theorem ax25SendVia_eq : ax25SendVia ctx path data =
    ({ ctx with crcOut := ax25CrcCorrect },
      hdlcFlag :: (stuff ax25Special ax25Esc (frameText path data) ++ [hdlcFlag])) := by
  have hbody : addrBytes path ++ [ax25CtrlUi] ++ [ax25PidNolayer3] ++ data = frameBody path data := by
    simp [frameBody]
  have htext : frameBody path data ++ [(crcCcitt crcCcittInitVal (frameBody path data) &&& 0xff).toUInt8 ^^^ 0xff] ++
      [(crcCcitt crcCcittInitVal (frameBody path data) >>> 8).toUInt8 ^^^ 0xff] = frameText path data := by
    simp [frameText, crcTail]
  rw [← crc_frameText path data]
  simp only [ax25SendVia, ax25SendPath_eq, ax25Putchar_eq, ax25Puts_eq, ← crcCcitt_append, cons_append,
    ← stuff_append, hbody, htext]

end Send

/-! ## At the other end -/

section Bytes

variable {junk : AX25Ctx → UInt8} {ctx : AX25Ctx}

/-- A byte of the frame is put into the buffer. -/
def putByte (ctx : AX25Ctx) (c : UInt8) : AX25Ctx :=
  { ctx with buf := Mem.write ctx.buf ctx.frmLen [c], frmLen := ctx.frmLen + 1, crcIn := updcrcCcitt c ctx.crcIn,
             escape := false }

/-- The receiver is inside a frame, and there is room for these bytes. -/
structure InFrame (bs : List UInt8) (ctx : AX25Ctx) : Prop where
  sync : ctx.sync = true
  escape : ctx.escape = false
  room : ctx.frmLen + bs.length ≤ ax25FrameBufLen

variable {bs : List UInt8}

theorem InFrame.put {c : UInt8} (h : InFrame (c :: bs) ctx) : InFrame bs (putByte ctx c) := by
  refine ⟨h.sync, rfl, ?_⟩
  have hroom := h.room
  simp only [putByte, length_cons] at hroom ⊢
  omega

theorem InFrame.lt {c : UInt8} (h : InFrame (c :: bs) ctx) : ctx.frmLen < ax25FrameBufLen :=
  Nat.lt_of_lt_of_le (Nat.lt_add_of_pos_right (Nat.succ_pos bs.length)) h.room

/-- What `pollChar` does inside a frame with a byte that ends nothing. -/
theorem pollChar_put {c : UInt8} {ctx : AX25Ctx} (hsync : ctx.sync = true)
    (hroom : ctx.frmLen < ax25FrameBufLen) (hc : ctx.escape = true ∨ ax25Special c = false) :
    pollChar junk ctx c = (putByte ctx c, none) := by
  have hnot : ∀ d, d = hdlcFlag ∨ d = hdlcReset ∨ d = ax25Esc → ¬ (ctx.escape = false ∧ c = d) := by
    rintro d hd ⟨he, rfl⟩
    rcases hc with hc | hc
    · rw [hc] at he
      cases he
    · simp [ax25Special, hd] at hc
  rw [pollChar, if_neg (hnot _ (.inl rfl)), if_neg (hnot _ (.inr (.inl rfl))), if_neg (hnot _ (.inr (.inr rfl))),
    if_pos hsync, if_pos hroom]
  rfl

theorem pollChar_esc (he : ctx.escape = false) : pollChar junk ctx ax25Esc = ({ ctx with escape := true }, none) := by
  have hflag : ¬ (ctx.escape = false ∧ ax25Esc = hdlcFlag) := fun h => absurd h.2 (by decide)
  have hreset : ¬ (ctx.escape = false ∧ ax25Esc = hdlcReset) := fun h => absurd h.2 (by decide)
  rw [pollChar, if_neg hflag, if_neg hreset, if_pos ⟨he, rfl⟩]

theorem feed_frame (junk : AX25Ctx → UInt8) (h : InFrame bs ctx) :
    feed (pollChar junk) ctx (stuff ax25Special ax25Esc bs) = (bs.foldl putByte ctx, []) := by
  have hplain : ∀ s c bs, InFrame (c :: bs) s → ax25Special c = false → pollChar junk s c = (putByte s c, none) :=
    fun s c bs h hc => pollChar_put h.sync h.lt (.inr hc)
  refine feed_stuff hplain (fun s c bs h hc => ?_) (fun s c bs h => h.put) h
  refine ⟨_, pollChar_esc h.escape, ?_⟩
  exact pollChar_put h.sync h.lt (.inl rfl)

theorem foldl_putByte (h : InFrame bs ctx) : (bs.foldl putByte ctx).buf = Mem.write ctx.buf ctx.frmLen bs ∧
      (bs.foldl putByte ctx).frmLen = ctx.frmLen + bs.length ∧
      (bs.foldl putByte ctx).crcIn = crcCcitt ctx.crcIn bs ∧ (bs.foldl putByte ctx).escape = false := by
  induction bs generalizing ctx with
  | nil => exact ⟨(write_nil _ _).symm, rfl, rfl, h.escape⟩
  | cons c bs ih =>
    obtain ⟨hbuf, hlen, hcrc, hesc⟩ := ih h.put
    refine ⟨?_, ?_, hcrc, hesc⟩
    · rw [foldl_cons, hbuf]
      exact write_append ctx.buf ctx.frmLen [c] bs
    · rw [foldl_cons, hlen, length_cons]
      simp only [putByte]
      omega

end Bytes

/-! ## The address -/

section Address

structure ValidCall (addr : AX25Call) : Prop where
  name : ∃ name : List UInt8, addr.call = name ++ List.replicate (sizeofCall - name.length) 0 ∧ name ≠ [] ∧
    name.length ≤ sizeofCall ∧ ∀ c ∈ name, (65 ≤ c ∧ c ≤ 90) ∨ (48 ≤ c ∧ c ≤ 57)
  ssid : addr.ssid < 16

theorem decodeChar_toupper : ∀ c : UInt8, (65 ≤ c ∧ c ≤ 90) ∨ (48 ≤ c ∧ c ≤ 57) →
    c ≠ 0 ∧ decodeChar (toupper c <<< 1) = c :=
  forall_uint8 (by decide +kernel)

theorem callSsid_facts : ∀ s : UInt8, s < 16 → ∀ last : Bool, (callSsid ⟨[], s⟩ last >>> 1) &&& 0x0F = s ∧
    (callSsid ⟨[], s⟩ last &&& 0x01 = 0 ↔ last = false) ∧ callSsid ⟨[], s⟩ last &&& 0x80 = 0 :=
  forall_uint8 (by decide +kernel)

variable {addr : AX25Call}

/-- A valid call is six shifted characters and its SSID. -/
theorem ValidCall.callBytes_eq (h : ValidCall addr) (last : Bool) :
    ∃ chars, callBytes addr last = chars ++ [callSsid addr last] ∧ chars.length = sizeofCall ∧
      chars.map decodeChar = addr.call := by
  obtain ⟨name, hcall, -, hlen, hname⟩ := h.name
  have hfirst : (addr.call.take sizeofCall).takeWhile (· ≠ 0) = name := by
    rw [hcall, take_of_length_le (by rw [length_append, length_replicate]; omega),
      takeWhile_append_of_pos (by simpa using fun c hc => (decodeChar_toupper c (hname c hc)).1)]
    simp
  refine ⟨_, by rw [callBytes, hfirst], ?_, ?_⟩
  · rw [length_append, length_map, length_replicate]
    omega
  · have hblank : decodeChar ((0x20 : UInt8) <<< 1) = 0 := by decide
    have hmap : name.map (decodeChar ∘ fun c => toupper c <<< 1) = name := by
      conv_rhs => rw [← map_id name]
      exact map_congr_left fun c hc => (decodeChar_toupper c (hname c hc)).2
    rw [map_append, map_map, map_replicate, hblank, hcall, hmap]

theorem ValidCall.length_callBytes (h : ValidCall addr) (last : Bool) : (callBytes addr last).length = 7 := by
  obtain ⟨chars, hbytes, hlen, -⟩ := h.callBytes_eq last
  rw [hbytes, length_append, hlen]
  rfl

theorem length_addrBytes {path : List AX25Call} (h : ∀ addr ∈ path, ValidCall addr) :
    (addrBytes path).length = 7 * path.length := by
  induction path with
  | nil => rfl
  | cons addr path ih =>
    rw [addrBytes, length_append, (h addr (by simp)).length_callBytes, ih fun a ha => h a (by simp [ha]),
      length_cons]
    omega

variable {buf : ℕ → UInt8} {pos : ℕ}

theorem ValidCall.decode (h : ValidCall addr) {last : Bool} (hread : Mem.read buf pos 7 = callBytes addr last) :
    (⟨decodeCall buf pos, decodeSsid buf (pos + 6)⟩ : AX25Call) = addr ∧ buf (pos + 6) = callSsid addr last := by
  obtain ⟨chars, hbytes, hlen, hmap⟩ := h.callBytes_eq last
  have hparts : read buf pos (chars.length + [callSsid addr last].length) = chars ++ [callSsid addr last] := by
    rw [hlen, ← hbytes]
    exact hread
  obtain ⟨hchars, hssid⟩ := read_eq_append _ _ hparts
  rw [hlen] at hchars hssid
  have hbyte : buf (pos + 6) = callSsid addr last := by
    simpa [read_succ, sizeofCall] using hssid
  have hfact := (callSsid_facts addr.ssid h.ssid last).1
  refine ⟨?_, hbyte⟩
  rw [decodeCall, hchars, hmap, decodeSsid, hbyte]
  exact congrArg (AX25Call.mk addr.call) hfact

theorem hasBit_flag : ∀ i < 8, ∀ j < 8, hasBit (1 <<< UInt8.ofNat i) j = decide (i = j) := by decide

theorem hasBit_setRepeated {flags : UInt8} {i j : ℕ} (hi : i < 8) (hj : j < 8) :
    hasBit (setRepeated flags i 0) j = (hasBit flags j && !decide (i = j)) := by
  rw [setRepeated, if_neg (by simp), hasBit_and_not, hasBit_flag i hi j hj]

theorem AX25Msg.repeated_eq (msg : AX25Msg) {i : ℕ} (hi : i < 8) : msg.repeated i = hasBit msg.rptFlags i := by
  rw [AX25Msg.repeated, Bool.eq_iff_iff, decide_eq_true_eq, and_ne_zero_iff]
  constructor
  · rintro ⟨j, hflag, hj⟩
    have hj8 : j < 8 := by
      by_contra hge
      rw [hasBit, BitVec.getLsbD_of_ge _ _ (Nat.le_of_not_lt hge)] at hj
      cases hj
    rw [hasBit_flag i hi j hj8, decide_eq_true_eq] at hj
    rwa [hj]
  · exact fun h => ⟨i, h, by rw [hasBit_flag i hi i hi, decide_eq_true rfl]⟩

/-- **The repeaters.** -/
theorem decodeRpt_addrBytes {rpts : List AX25Call} (hv : ∀ addr ∈ rpts, ValidCall addr) {n cnt : ℕ} {flags : UInt8}
    (hn : rpts.length ≤ n) (hcnt : cnt + rpts.length ≤ 8) (hlast : buf pos &&& 0x01 = 0 ↔ rpts.isEmpty = false)
    (hread : Mem.read buf (pos + 1) (addrBytes rpts).length = addrBytes rpts) :
    ∃ flags', decodeRpt buf n cnt pos flags = (rpts, flags', pos + 1 + 7 * rpts.length) ∧
      (∀ j < cnt, hasBit flags' j = hasBit flags j) ∧ ∀ j, cnt ≤ j → j < cnt + rpts.length → hasBit flags' j =
        false := by
  induction rpts generalizing n cnt pos flags with
  | nil =>
    have hodd : ¬ buf pos &&& 0x01 = 0 := by
      rw [hlast]
      simp
    refine ⟨flags, ?_, fun j _ => rfl, fun j h1 h2 => ?_⟩
    · cases n with
      | zero => rfl
      | succ n => rw [decodeRpt, if_neg hodd]; rfl
    · simp only [length_nil] at h2
      omega
  | cons addr rpts ih =>
    obtain ⟨m, rfl⟩ : ∃ m, n = m + 1 := ⟨n - 1, by simp only [length_cons] at hn; omega⟩
    have haddr := hv addr (by simp)
    rw [addrBytes, length_append] at hread
    obtain ⟨hfst, hrest⟩ := read_eq_append _ _ hread
    rw [haddr.length_callBytes] at hfst hrest
    obtain ⟨hcall, hbyte⟩ := haddr.decode hfst
    obtain ⟨-, hmark, hrpt⟩ := callSsid_facts addr.ssid haddr.ssid rpts.isEmpty
    simp only [length_cons] at hn hcnt
    have heven : buf pos &&& 0x01 = 0 := hlast.mpr rfl
    have hset : buf (pos + 7) &&& 0x80 = 0 := by
      rw [hbyte]
      exact hrpt
    have hnext : buf (pos + 7) &&& 0x01 = 0 ↔ rpts.isEmpty = false := by
      rw [hbyte]
      exact hmark
    obtain ⟨flags', hdec, hold, hnew⟩ : ∃ flags', decodeRpt buf m (cnt + 1) (pos + 7) (setRepeated flags cnt 0) =
          (rpts, flags', pos + 7 + 1 + 7 * rpts.length) ∧
        (∀ j < cnt + 1, hasBit flags' j = hasBit (setRepeated flags cnt 0) j) ∧
        ∀ j, cnt + 1 ≤ j → j < cnt + 1 + rpts.length → hasBit flags' j = false :=
      ih (fun a ha => hv a (by simp [ha])) (by omega) (by omega) hnext hrest
    refine ⟨flags', ?_, fun j hj => ?_, fun j h1 h2 => ?_⟩
    · rw [decodeRpt, if_pos heven]
      simp only [hset, hdec, hcall, length_cons]
      congr 2
      omega
    · rw [hold j (by omega), hasBit_setRepeated (by omega) (by omega)]
      simp [show cnt ≠ j by omega]
    · simp only [length_cons] at h2
      rcases Nat.lt_or_ge cnt j with hj | hj
      · exact hnew j hj (by omega)
      · rw [hold j (by omega), hasBit_setRepeated (by omega) (by omega)]
        simp [show cnt = j by omega]

end Address

/-! ## A frame from end to end -/

section RoundTrip

variable {path : List AX25Call} {data : List UInt8}

variable {rpts : List AX25Call} {dst src : AX25Call}

/-- Where each call of a frame is found. -/
theorem frame_parts {buf : ℕ → UInt8} (hv : ∀ addr ∈ dst :: src :: rpts, ValidCall addr)
    (hbuf : Mem.read buf 0 (frameText (dst :: src :: rpts) data).length = frameText (dst :: src :: rpts) data) :
    ((⟨decodeCall buf 0, decodeSsid buf 6⟩ : AX25Call) = dst ∧ (⟨decodeCall buf 7, decodeSsid buf 13⟩ : AX25Call) =
      src) ∧ (buf 13 &&& 0x01 = 0 ↔ rpts.isEmpty = false) ∧ Mem.read buf 14 (addrBytes rpts).length = addrBytes rpts ∧
      (buf (14 + 7 * rpts.length) = ax25CtrlUi ∧ buf (14 + 7 * rpts.length + 1) = ax25PidNolayer3) ∧
      Mem.read buf (14 + 7 * rpts.length + 2) data.length = data := by
  have hdstv := hv dst (by simp)
  have hsrcv := hv src (by simp)
  have haddr : 0 + (addrBytes (dst :: src :: rpts)).length = 14 + 7 * rpts.length := by
    rw [length_addrBytes hv, length_cons, length_cons]
    omega
  have hinfo : 0 + (addrBytes (dst :: src :: rpts) ++ [ax25CtrlUi, ax25PidNolayer3]).length =
    14 + 7 * rpts.length + 2 := by
    rw [length_append, ← haddr]
    rfl
  rw [frameText, length_append] at hbuf
  obtain ⟨hbody, -⟩ := read_eq_append _ _ hbuf
  rw [frameBody, length_append] at hbody
  obtain ⟨hhead, hdata⟩ := read_eq_append _ _ hbody
  rw [hinfo] at hdata
  rw [length_append] at hhead
  obtain ⟨hpath, hctrl⟩ := read_eq_append _ _ hhead
  rw [haddr] at hctrl
  simp only [length_cons, length_nil, read_succ, read_zero, cons.injEq, and_true] at hctrl
  -- the call signs
  rw [addrBytes, addrBytes, length_append] at hpath
  obtain ⟨hdst, hpath⟩ := read_eq_append _ _ hpath
  rw [length_append] at hpath
  obtain ⟨hsrc, hrpts⟩ := read_eq_append _ _ hpath
  rw [hdstv.length_callBytes] at hdst hsrc hrpts
  rw [hsrcv.length_callBytes] at hsrc hrpts
  obtain ⟨hdst, -⟩ := hdstv.decode hdst
  obtain ⟨hsrc, hmark⟩ := hsrcv.decode hsrc
  refine ⟨⟨hdst, hsrc⟩, ?_, hrpts, hctrl, hdata⟩
  rw [show buf 13 = callSsid src rpts.isEmpty from hmark]
  exact (callSsid_facts src.ssid hsrcv.ssid rpts.isEmpty).2.1

theorem length_frameText (data : List UInt8) (hv : ∀ addr ∈ dst :: src :: rpts, ValidCall addr) :
    (frameText (dst :: src :: rpts) data).length = 14 + 7 * rpts.length + 2 + data.length + 2 := by
  rw [frameText, frameBody, crcTail]
  simp only [length_append, length_addrBytes hv, length_cons, length_nil]
  omega

/-- **The frame of a message** decodes to it. -/
theorem ax25Decode_frameText {ctx : AX25Ctx} (hv : ∀ addr ∈ dst :: src :: rpts, ValidCall addr)
    (hrpt : rpts.length ≤ ax25MaxRpt)
    (hbuf : Mem.read ctx.buf 0 (frameText (dst :: src :: rpts) data).length = frameText (dst :: src :: rpts) data)
    (hlen : ctx.frmLen = (frameText (dst :: src :: rpts) data).length) (hfit : ctx.frmLen ≤ ax25FrameBufLen)
    (junk : UInt8) : ∃ msg, ax25Decode junk ctx = some msg ∧ msg.dst = dst ∧ msg.src = src ∧ msg.rptLst = rpts ∧
      (∀ i < rpts.length, msg.repeated i = false) ∧ msg.ctrl = ax25CtrlUi ∧ msg.pid = ax25PidNolayer3 ∧
      Mem.read ctx.buf msg.info msg.len.toNat = data := by
  obtain ⟨⟨hdst, hsrc⟩, hlast, hrpts, ⟨hctrl, hpid⟩, hdata⟩ := frame_parts hv hbuf
  obtain ⟨flags, hdec, -, hclear⟩ : ∃ flags, decodeRpt ctx.buf ax25MaxRpt 0 13 junk =
    (rpts, flags, 14 + 7 * rpts.length) ∧
      (∀ j < 0, hasBit flags j = hasBit junk j) ∧ ∀ j, 0 ≤ j → j < 0 + rpts.length → hasBit flags j = false :=
    decodeRpt_addrBytes (fun a ha => hv a (by simp [ha])) hrpt (by rw [Nat.zero_add]; exact hrpt) hlast hrpts
  have hmsglen : (UInt32.ofNat ctx.frmLen - 2 - UInt32.ofNat (14 + 7 * rpts.length + 2)).toNat = data.length := by
    have hmax : ax25FrameBufLen = 330 := rfl
    rw [hlen, length_frameText data hv] at hfit
    rw [UInt32.toNat_sub, UInt32.toNat_sub, UInt32.toNat_ofNat', UInt32.toNat_ofNat', hlen, length_frameText data hv]
    show (_ + (4294967296 - 2 + _) % _) % _ = _
    omega
  refine ⟨⟨src, dst, rpts, flags, ax25CtrlUi, ax25PidNolayer3, 14 + 7 * rpts.length + 2,
    UInt32.ofNat ctx.frmLen - 2 - UInt32.ofNat (14 + 7 * rpts.length + 2)⟩, ?_, ?_⟩
  · simp only [ax25Decode, hdec, hctrl, hpid, if_true, hdst, hsrc]
  · refine ⟨rfl, rfl, rfl, fun i hi => ?_, rfl, rfl, ?_⟩
    · rw [AX25Msg.repeated_eq _ (Nat.lt_of_lt_of_le hi hrpt)]
      exact hclear i (Nat.zero_le _) (by omega)
    · rw [hmsglen]
      exact hdata

def NoFrame (ctx : AX25Ctx) : Prop := ctx.frmLen < ax25MinFrameLen ∨ ctx.crcIn ≠ ax25CrcCorrect

theorem pollChar_start {junk : AX25Ctx → UInt8} {rx : AX25Ctx} (he : rx.escape = false) (hout : NoFrame rx) :
    pollChar junk rx hdlcFlag = ({ rx with sync := true, crcIn := crcCcittInitVal, frmLen := 0 }, none) := by
  rw [pollChar, if_pos ⟨he, rfl⟩]
  rcases hout with hout | hout
  · rw [if_neg (Nat.not_le.mpr hout)]
  · rw [if_neg hout, ite_self]

/-- **What AX.25 sends, AX.25 receives.** For every path and every payload that fit, the assertion at the end of
`ax25_sendVia` holds, and a receiver outside a frame calls the hook once, with the path and the payload. -/
theorem ax25Poll_sendVia (tx rx : AX25Ctx) (junk : AX25Ctx → UInt8) (dst src : AX25Call) (rpts : List AX25Call)
    (data : List UInt8) (hv : ∀ addr ∈ dst :: src :: rpts, ValidCall addr) (hrpt : rpts.length ≤ ax25MaxRpt)
    (hfit : 7 * (dst :: src :: rpts).length + 2 + data.length + 2 ≤ ax25FrameBufLen) (he : rx.escape = false)
    (hout : NoFrame rx) :
    (ax25SendVia tx (dst :: src :: rpts) data).1.crcOut = ax25CrcCorrect ∧
      ∃ rx' h, ax25Poll junk rx (ax25SendVia tx (dst :: src :: rpts) data).2 = (rx', [h]) ∧
        h.msg.dst = dst ∧ h.msg.src = src ∧ h.msg.rptLst = rpts ∧ (∀ i < rpts.length, h.msg.repeated i = false) ∧
        h.msg.ctrl = ax25CtrlUi ∧ h.msg.pid = ax25PidNolayer3 ∧ Mem.read h.ctx.buf h.msg.info h.msg.len.toNat =
          data := by
  have hlen := length_frameText data hv
  simp only [length_cons] at hfit
  rw [ax25SendVia_eq]
  refine ⟨rfl, ?_⟩
  -- the first flag, and the bytes of the frame
  have hin : InFrame (frameText (dst :: src :: rpts) data)
      { rx with sync := true, crcIn := crcCcittInitVal, frmLen := 0 } := by
    refine ⟨rfl, he, ?_⟩
    show 0 + _ ≤ _
    omega
  have hfeed := feed_frame junk hin
  obtain ⟨hbuf, hfrm, hcrc, hesc⟩ := foldl_putByte hin
  generalize (frameText (dst :: src :: rpts) data).foldl putByte _ = ctx at hbuf hfrm hcrc hesc hfeed
  have hread : read ctx.buf 0 (frameText (dst :: src :: rpts) data).length = frameText (dst :: src :: rpts) data := by
    rw [hbuf]
    exact read_write_self _ _ _
  have hfrm' : ctx.frmLen = (frameText (dst :: src :: rpts) data).length := hfrm.trans (Nat.zero_add _)
  obtain ⟨msg, hmsg, hprops⟩ := ax25Decode_frameText hv hrpt hread hfrm' (by omega) (junk ctx)
  -- the second flag
  have hend : pollChar junk ctx hdlcFlag =
      ({ ctx with sync := true, crcIn := crcCcittInitVal, frmLen := 0 }, some ⟨ctx, msg⟩) := by
    have hmin : ax25MinFrameLen ≤ ctx.frmLen := by
      rw [hfrm', ax25MinFrameLen]
      omega
    rw [pollChar, if_pos ⟨hesc, rfl⟩, if_pos hmin, if_pos (hcrc.trans (crc_frameText _ _)), hmsg]
    rfl
  refine ⟨{ ctx with sync := true, crcIn := crcCcittInitVal, frmLen := 0 }, ⟨ctx, msg⟩, ?_, hprops⟩
  rw [ax25Poll, feed_cons_none _ (pollChar_start he hout), feed_append_quiet _ hfeed,
    feed_cons, hend]
  rfl

/-- A path with a repeater whose SSID byte needs an escape, and a payload that needs escapes. -/
theorem ax25Poll_sendVia_escapes : ∃ rx' h,
    ax25Poll (fun _ => 0xFF) ax25Init (ax25SendVia ax25Init [⟨[65, 0, 0, 0, 0, 0], 0⟩, ⟨[66, 49, 0, 0, 0, 0], 3⟩,
        ⟨[67, 68, 69, 70, 71, 72], 15⟩] [0x7E, 0x1B, 0x41]).2 = (rx', [h]) ∧
      h.msg.dst = ⟨[65, 0, 0, 0, 0, 0], 0⟩ ∧ h.msg.rptLst = [⟨[67, 68, 69, 70, 71, 72], 15⟩] ∧
      Mem.read h.ctx.buf h.msg.info h.msg.len.toNat = [0x7E, 0x1B, 0x41] := by
  have hv : ∀ addr ∈ [(⟨[65, 0, 0, 0, 0, 0], 0⟩ : AX25Call), ⟨[66, 49, 0, 0, 0, 0], 3⟩, ⟨[67, 68, 69, 70, 71, 72], 15⟩],
      ValidCall addr := by
    intro addr haddr
    simp only [mem_cons, not_mem_nil, or_false] at haddr
    rcases haddr with rfl | rfl | rfl
    · exact ⟨⟨[65], rfl, by decide, by decide, by decide +kernel⟩, by decide⟩
    · exact ⟨⟨[66, 49], rfl, by decide, by decide, by decide +kernel⟩, by decide⟩
    · exact ⟨⟨[67, 68, 69, 70, 71, 72], rfl, by decide, by decide, by decide +kernel⟩, by decide⟩
  obtain ⟨-, rx', h, hpoll, hdst, -, hrpt, -, -, -, hdata⟩ := ax25Poll_sendVia ax25Init ax25Init (fun _ => 0xFF) _ _ _
    [0x7E, 0x1B, 0x41] hv (by decide) (by decide) rfl (.inl (by decide))
  exact ⟨rx', h, hpoll, hdst, hrpt, hdata⟩

end RoundTrip

/-! ## The place of the payload -/

section Place

/-- What the hook gets lies in the frame, before the CRC. -/
structure InfoInside (h : HookCall) : Prop where
  info : h.msg.info < h.ctx.frmLen
  fin : h.msg.info + h.msg.len.toNat ≤ h.ctx.frmLen - 2
  len : h.msg.len.toNat ≤ h.ctx.frmLen - 18

/-- The call signs of the frame end (with a mark, or because there are eight repeaters) before its last four bytes. -/
def AddressEnds (ctx : AX25Ctx) : Prop :=
  ∃ k ≤ ax25MaxRpt, (ctx.buf (13 + 7 * k) &&& 0x01 ≠ 0 ∨ k = ax25MaxRpt) ∧ 18 + 7 * k ≤ ctx.frmLen

/-- The repeaters end at the first set bit or at the limit. -/
theorem decodeRpt_stop (buf : ℕ → UInt8) (n cnt pos : ℕ) (flags : UInt8) :
    ∃ k ≤ n, (decodeRpt buf n cnt pos flags).2.2 = pos + 7 * k + 1 ∧ (buf (pos + 7 * k) &&& 0x01 ≠ 0 ∨ k = n) ∧
      ∀ j < k, buf (pos + 7 * j) &&& 0x01 = 0 := by
  induction n generalizing cnt pos flags with
  | zero => exact ⟨0, Nat.le_refl 0, rfl, .inr rfl, fun j hj => absurd hj (Nat.not_lt_zero j)⟩
  | succ n ih =>
    by_cases heven : buf pos &&& 0x01 = 0
    · obtain ⟨k, hk, hpos, hstop, hpass⟩ := ih (cnt + 1) (pos + 7) (setRepeated flags cnt (buf (pos + 7) &&& 0x80))
      have hplace : ∀ j, pos + 7 + 7 * j = pos + 7 * (j + 1) := fun j => by omega
      simp only [hplace] at hpos hstop hpass
      refine ⟨k + 1, by omega, ?_, hstop.imp_right (by omega), fun j hj => ?_⟩
      · rw [decodeRpt, if_pos heven]
        exact hpos
      · cases j with
        | zero => exact heven
        | succ j => exact hpass j (by omega)
    · refine ⟨0, by omega, ?_, .inl heven, fun j hj => absurd hj (Nat.not_lt_zero j)⟩
      rw [decodeRpt, if_neg heven]

section
variable {junk : UInt8} {ctx : AX25Ctx} {msg : AX25Msg} (hmsg : ax25Decode junk ctx = some msg)
include hmsg

/-- The place and the length that `ax25_decode` hands out. -/
theorem ax25Decode_place :
    ∃ k ≤ ax25MaxRpt, msg.info = 16 + 7 * k ∧ msg.len = UInt32.ofNat ctx.frmLen - 2 - UInt32.ofNat (16 + 7 * k) ∧
      (ctx.buf (13 + 7 * k) &&& 0x01 ≠ 0 ∨ k = ax25MaxRpt) ∧ ∀ j < k, ctx.buf (13 + 7 * j) &&& 0x01 = 0 := by
  obtain ⟨k, hk, hpos, hstop, hpass⟩ := decodeRpt_stop ctx.buf ax25MaxRpt 0 13 junk
  rw [ax25Decode] at hmsg
  generalize decodeRpt ctx.buf ax25MaxRpt 0 13 junk = r at hpos hmsg
  obtain ⟨rpts, flags, pos⟩ := r
  have hplace : pos + 2 = 16 + 7 * k := by
    simp only at hpos
    omega
  dsimp only at hmsg
  split_ifs at hmsg
  cases hmsg
  exact ⟨k, hk, hplace, by rw [hplace], hstop, hpass⟩

/-- The information lies inside the frame exactly when the address ends in it. -/
theorem infoInside_iff (hmin : ax25MinFrameLen ≤ ctx.frmLen) (hmax : ctx.frmLen ≤ ax25FrameBufLen) :
    InfoInside ⟨ctx, msg⟩ ↔ AddressEnds ctx := by
  obtain ⟨k, hk, hinfo, hlen, hstop, hpass⟩ := ax25Decode_place hmsg
  have hlen' : msg.len.toNat = (4294967296 + ctx.frmLen - 18 - 7 * k) % 4294967296 := by
    simp only [ax25MinFrameLen, ax25FrameBufLen, ax25MaxRpt] at hmin hmax hk
    rw [hlen, UInt32.toNat_sub, UInt32.toNat_sub, UInt32.toNat_ofNat', UInt32.toNat_ofNat']
    show (_ + (4294967296 - 2 + _) % _) % _ = _
    omega
  simp only [ax25MinFrameLen, ax25FrameBufLen] at hmin hmax
  constructor
  · intro hin
    have hle := hin.len
    simp only [hlen'] at hle
    simp only [ax25MaxRpt] at hk
    exact ⟨k, hk, hstop, by omega⟩
  · rintro ⟨j, hj, hend, hroom⟩
    -- the loop does not pass the end of the address
    have hkj : k ≤ j := by
      by_contra hlt
      rcases hend with hend | hend
      · exact hend (hpass j (by omega))
      · omega
    refine ⟨?_, ?_, ?_⟩
    · show msg.info < ctx.frmLen
      omega
    · show msg.info + msg.len.toNat ≤ ctx.frmLen - 2
      omega
    · show msg.len.toNat ≤ ctx.frmLen - 18
      omega

end

/-- The hook is called with decoded frames of the right length alone. -/
theorem hookCall_spec (junk : AX25Ctx → UInt8) (cs : List UInt8) :
    ∀ h ∈ (ax25Poll junk ax25Init cs).2, ax25Decode (junk h.ctx) h.ctx = some h.msg ∧
      ax25MinFrameLen ≤ h.ctx.frmLen ∧ h.ctx.frmLen ≤ ax25FrameBufLen := by
  have hinv := feed_invariant (pollChar junk) (I := fun ctx => ctx.frmLen ≤ ax25FrameBufLen)
    (Q := fun h => ax25Decode (junk h.ctx) h.ctx = some h.msg ∧ ax25MinFrameLen ≤ h.ctx.frmLen ∧
      h.ctx.frmLen ≤ ax25FrameBufLen) ?_ (s := ax25Init) (Nat.zero_le _) cs
  · exact hinv.2
  · intro ctx c hctx
    unfold pollChar
    split_ifs with h1 h2 h3 h4 h5 h6 h7
    · refine ⟨Nat.zero_le _, fun h hh => ?_⟩
      obtain ⟨msg, hmsg, rfl⟩ := Option.map_eq_some_iff.mp hh
      exact ⟨hmsg, h2, hctx⟩
    · exact ⟨Nat.zero_le _, by simp⟩
    · exact ⟨Nat.zero_le _, by simp⟩
    · exact ⟨hctx, by simp⟩
    · exact ⟨hctx, by simp⟩
    · exact ⟨h7, by simp⟩
    · exact ⟨hctx, by simp⟩
    · exact ⟨hctx, by simp⟩

/-- **Data inside the frame.** Whatever is received, what a hook gets lies inside the frame exactly if the address of
the frame ends there. -/
theorem hook_inside_iff (junk : AX25Ctx → UInt8) (cs : List UInt8) {h : HookCall}
    (hh : h ∈ (ax25Poll junk ax25Init cs).2) : InfoInside h ↔ AddressEnds h.ctx := by
  obtain ⟨hmsg, hmin, hmax⟩ := hookCall_spec junk cs h hh
  exact infoInside_iff hmsg hmin hmax

/-- A frame with three bytes of payload. -/
theorem hook_inside_payload : ∃ h ∈ (ax25Poll (fun _ => 0) ax25Init
    (ax25SendVia ax25Init [⟨[65, 0, 0, 0, 0, 0], 0⟩, ⟨[66, 0, 0, 0, 0, 0], 0⟩] [1, 2, 3]).2).2, InfoInside h := by
  have hcalls : (ax25Poll (fun _ => 0) ax25Init (ax25SendVia ax25Init [⟨[65, 0, 0, 0, 0, 0], 0⟩,
      ⟨[66, 0, 0, 0, 0, 0], 0⟩] [1, 2, 3]).2).2.map (fun h => (h.ctx.frmLen, h.ctx.buf 13)) = [(21, 0x61)] := by
    decide +kernel
  obtain ⟨h, hpoll, hframe⟩ := map_eq_singleton_iff.mp hcalls
  obtain ⟨hlen, hbyte⟩ := Prod.mk.inj hframe
  have hmem : h ∈ (ax25Poll (fun _ => 0) ax25Init (ax25SendVia ax25Init [⟨[65, 0, 0, 0, 0, 0], 0⟩,
      ⟨[66, 0, 0, 0, 0, 0], 0⟩] [1, 2, 3]).2).2 := by
    rw [hpoll]
    exact mem_singleton_self h
  refine ⟨h, hmem, (hook_inside_iff _ _ hmem).mpr ⟨0, Nat.zero_le _, .inl ?_, by omega⟩⟩
  rw [hbyte]
  decide

/-- A frame with a wrong CRC that leaves an end mark, a control and a protocol byte behind, and one of 18 bytes
without an end mark. -/
def unendedAddress : List UInt8 :=
  [hdlcFlag] ++ List.replicate 20 0 ++ [0x01, ax25CtrlUi, ax25PidNolayer3] ++
    [hdlcFlag] ++ List.replicate 16 0 ++ crcTail (crcCcitt crcCcittInitVal (List.replicate 16 0)) ++ [hdlcFlag]

/-- **Data outside the frame**: of a frame of 18 bytes, the hook gets `2^32 - 7` bytes from place 23 on. -/
theorem hook_outside_frame : ∃ h ∈ (ax25Poll (fun _ => 0) ax25Init unendedAddress).2,
    h.ctx.frmLen = 18 ∧ h.msg.info = 23 ∧ h.msg.len = 4294967289 ∧ ¬ InfoInside h := by
  have hcalls : (ax25Poll (fun _ => 0) ax25Init unendedAddress).2.map (fun h => (h.ctx.frmLen, h.msg.info, h.msg.len)) =
      [(18, 23, 4294967289)] := by
    decide +kernel
  obtain ⟨h, hpoll, hframe⟩ := map_eq_singleton_iff.mp hcalls
  obtain ⟨hlen, hplace⟩ := Prod.mk.inj hframe
  obtain ⟨hinfo, hmsglen⟩ := Prod.mk.inj hplace
  refine ⟨h, by rw [hpoll]; exact mem_singleton_self h, hlen, hinfo, hmsglen, fun hin => ?_⟩
  have hplace := hin.info
  rw [hlen, hinfo] at hplace
  exact absurd hplace (by decide)

end Place

end Bertos
