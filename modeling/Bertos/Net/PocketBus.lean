import Bertos.Lib.Mem
import Bertos.Algo.RotatingHash
import Bertos.Lib.Receiver

/-!
# PocketBus (`bertos/net/pocketbus.c`)

A packet is `STX`, the header, the payload, a checksum and `ETX`; between the two ends each of `STX`, `ETX` and `ESC`
has an `ESC` in front. The checksum is the rotating hash. The header is sent as it lies in memory (`HdrLayout`): there
may be padding behind the version, with any contents.

The receiver, in any state outside an escape, returns at the last character, with the address and the payload that were
sent (`pocketbusRecv_send`); after noise at most one packet is lost (`pocketbus_recovers`).
-/

namespace Bertos

open List Mem Receiver

/-- `sizeof(rotating_t)`. -/
def sizeofRotating : ℕ := 2

/-! ## The layout of the header -/

/-- How the compiler lays out `PocketBusHdr`: the bytes of padding between `ver` and `addr`, and the byte order. -/
structure HdrLayout where
  padding : ℕ
  bigEndian : Bool

namespace HdrLayout

variable (lay : HdrLayout)

def sizeofHdr : ℕ := 1 + lay.padding + 2

def bytes (x : UInt16) : List UInt8 :=
  if lay.bigEndian then [(x >>> 8).toUInt8, x.toUInt8] else [x.toUInt8, (x >>> 8).toUInt8]

def word (a b : UInt8) : UInt16 :=
  if lay.bigEndian then a.toUInt16 <<< 8 ||| b.toUInt16 else b.toUInt16 <<< 8 ||| a.toUInt16

/-- `cpu_to_be16` and `be16_to_cpu`. -/
def be16 (x : UInt16) : UInt16 := if lay.bigEndian then x else (x >>> 8) ||| (x <<< 8)

/-- The header in memory; `pad` are the contents of the padding. -/
def hdr (ver : UInt8) (pad : List UInt8) (addr : UInt16) : List UInt8 := ver :: pad ++ lay.bytes addr

def hdrVer (m : ℕ → UInt8) : UInt8 := m 0

def hdrAddr (m : ℕ → UInt8) : UInt16 := lay.word (m (1 + lay.padding)) (m (2 + lay.padding))

end HdrLayout

/-! ## Packets -/

def pocketbusStx : UInt8 := 0x02
def pocketbusEtx : UInt8 := 0x03
def pocketbusEsc : UInt8 := 0x1B
def pocketbusVer : UInt8 := 1

/-- `CONFIG_POCKETBUS_BUFLEN`. -/
def pocketbusBuflen : ℕ := 128

structure PocketBusCtx where
  buf : ℕ → UInt8
  sync : Bool
  escape : Bool
  inCks : UInt16
  outCks : UInt16
  len : UInt16

/-- A message; `payload` is a place in the buffer of the context. -/
structure PocketMsg where
  addr : UInt16
  len : UInt16
  payload : ℕ

/-- A context as `pocketbus_init` leaves it. -/
def pocketbusInit : PocketBusCtx := ⟨fun _ => 0, false, false, 0, 0, 0⟩

/-! ### The sender -/

/-- The characters are those that go to the channel. -/
def pocketbusPutchar (ctx : PocketBusCtx) (c : UInt8) : PocketBusCtx × List UInt8 :=
  ({ ctx with outCks := rotatingUpdate1 ctx.outCks c },
    if c = pocketbusEsc ∨ c = pocketbusStx ∨ c = pocketbusEtx then [pocketbusEsc, c] else [c])

def pocketbusWrite (ctx : PocketBusCtx) : List UInt8 → PocketBusCtx × List UInt8
  | [] => (ctx, [])
  | c :: data =>
    let (ctx₁, out₁) := pocketbusPutchar ctx c
    let (ctx₂, out₂) := pocketbusWrite ctx₁ data
    (ctx₂, out₁ ++ out₂)

def pocketbusBegin (lay : HdrLayout) (pad : List UInt8) (ctx : PocketBusCtx) (addr : UInt16) :
    PocketBusCtx × List UInt8 :=
  let (ctx, out) := pocketbusWrite { ctx with outCks := rotatingInit } (lay.hdr pocketbusVer pad (lay.be16 addr))
  (ctx, pocketbusStx :: out)

def pocketbusEnd (lay : HdrLayout) (ctx : PocketBusCtx) : PocketBusCtx × List UInt8 :=
  let (ctx, out) := pocketbusWrite ctx (lay.bytes (lay.be16 ctx.outCks))
  (ctx, out ++ [pocketbusEtx])

def pocketbusSend (lay : HdrLayout) (pad : List UInt8) (ctx : PocketBusCtx) (addr : UInt16) (data : List UInt8) :
    PocketBusCtx × List UInt8 :=
  let (ctx, out₁) := pocketbusBegin lay pad ctx addr
  let (ctx, out₂) := pocketbusWrite ctx data
  let (ctx, out₃) := pocketbusEnd lay ctx
  (ctx, out₁ ++ out₂ ++ out₃)

/-! ### The receiver -/

def packetEnd (lay : HdrLayout) (ctx : PocketBusCtx) : PocketBusCtx × Option PocketMsg :=
  if ctx.len.toNat < lay.sizeofHdr + sizeofRotating then (ctx, none)
  else
    let len := ctx.len - UInt16.ofNat sizeofRotating
    let ctx : PocketBusCtx :=
      { ctx with len := len, inCks := rotatingUpdate (Mem.read ctx.buf 0 len.toNat) ctx.inCks }
    let recvCks := (ctx.buf len.toNat).toUInt16 <<< 8 ||| (ctx.buf (len.toNat + 1)).toUInt16
    if recvCks = ctx.inCks then
      if HdrLayout.hdrVer ctx.buf = pocketbusVer then
        (ctx, some ⟨lay.be16 (lay.hdrAddr ctx.buf), UInt16.ofNat (ctx.len.toNat - lay.sizeofHdr), lay.sizeofHdr⟩)
      else (ctx, none)
    else (ctx, none)

/-- One turn of the loop of `pocketbus_recv`; with a message the function returns. -/
def recvChar (lay : HdrLayout) (ctx : PocketBusCtx) (c : UInt8) : PocketBusCtx × Option PocketMsg :=
  if c = pocketbusStx ∧ ctx.escape = false then ({ ctx with sync := true, len := 0, inCks := rotatingInit }, none)
  else if ctx.sync then
    if c = pocketbusEsc ∧ ctx.escape = false then ({ ctx with escape := true }, none)
    else if c = pocketbusEtx ∧ ctx.escape = false then packetEnd lay { ctx with sync := false }
    else if pocketbusBuflen ≤ ctx.len.toNat then ({ ctx with escape := false, sync := false }, none)
    else ({ ctx with escape := false, buf := Mem.write ctx.buf ctx.len.toNat [c], len := ctx.len + 1 }, none)
  else (ctx, none)

/-- `pocketbus_recv` on the characters that the channel has; the last component are those that are left unread. -/
def pocketbusRecv (lay : HdrLayout) (ctx : PocketBusCtx) : List UInt8 → Option PocketMsg × PocketBusCtx × List UInt8
  | [] => (none, ctx, [])
  | c :: cs =>
    match recvChar lay ctx c with
    | (ctx', some msg) => (some msg, ctx', cs)
    | (ctx', none) => pocketbusRecv lay ctx' cs

/-! ## On the wire -/

def pocketbusSpecial (c : UInt8) : Bool := decide (c = pocketbusEsc ∨ c = pocketbusStx ∨ c = pocketbusEtx)

theorem pocketbusWrite_eq (ctx : PocketBusCtx) (data : List UInt8) : pocketbusWrite ctx data =
    ({ ctx with outCks := rotatingUpdate data ctx.outCks }, stuff pocketbusSpecial pocketbusEsc data) := by
  induction data generalizing ctx with
  | nil => rfl
  | cons c data ih =>
    simp only [pocketbusWrite, pocketbusPutchar, ih, stuff_cons, pocketbusSpecial, decide_eq_true_eq]
    rfl

def beBytes (x : UInt16) : List UInt8 := [(x >>> 8).toUInt8, x.toUInt8]

section Bytes

variable (lay : HdrLayout) (x : UInt16)

theorem word_of_bytes : (x >>> 8).toUInt8.toUInt16 <<< 8 ||| x.toUInt8.toUInt16 = x := by
  apply UInt16.toBitVec_inj.mp
  apply BitVec.eq_of_getLsbD_eq
  intro i hi
  simp only [UInt16.toBitVec_or, UInt16.toBitVec_shiftLeft, UInt8.toBitVec_toUInt16, UInt16.toBitVec_toUInt8,
    UInt16.toBitVec_shiftRight, UInt16.toBitVec_ofNat]
  rcases Nat.lt_or_ge i 8 with h | h
  · simp [h, hi, BitVec.getLsbD_setWidth]
  · simp [h, hi, Nat.not_lt.mpr h, show i - 8 < 8 by omega]

theorem swab_low : ((x >>> 8) ||| (x <<< 8)).toUInt8 = (x >>> 8).toUInt8 := by
  apply UInt8.toBitVec_inj.mp
  apply BitVec.eq_of_getLsbD_eq
  intro i hi
  simp [hi]

theorem swab_high : (((x >>> 8) ||| (x <<< 8)) >>> 8).toUInt8 = x.toUInt8 := by
  apply UInt8.toBitVec_inj.mp
  apply BitVec.eq_of_getLsbD_eq
  intro i hi
  have hout : x.toBitVec.getLsbD (8 + (8 + i)) = false := BitVec.getLsbD_of_ge _ _ (by omega)
  simp [hout, show 8 + i < 16 by omega, show ¬ 8 + i < 8 by omega, BitVec.getLsbD_eq_getElem (x := x.toBitVec)
    (show i < 16 by omega)]

theorem swab_swab : ((x >>> 8) ||| (x <<< 8)) >>> 8 ||| ((x >>> 8) ||| (x <<< 8)) <<< 8 = x := by
  apply UInt16.toBitVec_inj.mp
  apply BitVec.eq_of_getLsbD_eq
  intro i hi
  have hout : x.toBitVec.getLsbD (8 + (8 + i)) = false := BitVec.getLsbD_of_ge _ _ (by omega)
  rcases Nat.lt_or_ge i 8 with h | h
  · simp [h, hi, hout, show 8 + i < 16 by omega]
  · simp [hi, hout, Nat.not_lt.mpr h, show i - 8 < 8 by omega, show 8 + (i - 8) = i by omega]

theorem HdrLayout.bytes_be16 : lay.bytes (lay.be16 x) = beBytes x := by
  unfold HdrLayout.bytes HdrLayout.be16 beBytes
  split
  · rfl
  · rw [swab_low, swab_high]

theorem HdrLayout.be16_word : lay.be16 (lay.word (x >>> 8).toUInt8 x.toUInt8) = x := by
  unfold HdrLayout.word HdrLayout.be16
  split
  · exact word_of_bytes x
  · have hswab := word_of_bytes ((x >>> 8) ||| (x <<< 8))
    rw [swab_low, swab_high] at hswab
    rw [hswab, swab_swab]

end Bytes

section Send

variable (lay : HdrLayout) (pad : List UInt8) (ctx : PocketBusCtx) (addr : UInt16) (data : List UInt8)

def packetBody : List UInt8 := pocketbusVer :: pad ++ beBytes addr ++ data

/-- The characters between the two ends, before the escapes. -/
def packetText : List UInt8 := packetBody pad addr data ++
    beBytes (rotatingUpdate (packetBody pad addr data) rotatingInit)

/-- **What is sent.** -/
theorem pocketbusSend_eq : (pocketbusSend lay pad ctx addr data).2 =
    pocketbusStx :: (stuff pocketbusSpecial pocketbusEsc (packetText pad addr data) ++ [pocketbusEtx]) := by
  have hhdr : lay.hdr pocketbusVer pad (lay.be16 addr) = pocketbusVer :: pad ++ beBytes addr := by
    rw [HdrLayout.hdr, HdrLayout.bytes_be16]
  simp only [pocketbusSend, pocketbusBegin, pocketbusEnd, pocketbusWrite_eq, hhdr, HdrLayout.bytes_be16,
    ← rotatingUpdate_append]
  simp only [packetText, packetBody, stuff_append]
  simp only [cons_append, append_assoc]

end Send

/-! ## At the other end -/

section Recv

variable {lay : HdrLayout} {ctx : PocketBusCtx}

/-- A character of the packet is put into the buffer. -/
def putChar (ctx : PocketBusCtx) (c : UInt8) : PocketBusCtx :=
  { ctx with escape := false, buf := Mem.write ctx.buf ctx.len.toNat [c], len := ctx.len + 1 }

/-- The receiver is inside a packet, and there is room for these characters. -/
structure Receiving (bs : List UInt8) (ctx : PocketBusCtx) : Prop where
  sync : ctx.sync = true
  escape : ctx.escape = false
  room : ctx.len.toNat + bs.length ≤ pocketbusBuflen

variable {bs : List UInt8}

theorem len_succ {c : UInt8} (h : Receiving (c :: bs) ctx) : (ctx.len + 1).toNat = ctx.len.toNat + 1 := by
  have hroom := h.room
  simp only [length_cons, pocketbusBuflen] at hroom
  rw [UInt16.toNat_add]
  exact Nat.mod_eq_of_lt (by simp; omega)

theorem Receiving.put {c : UInt8} (h : Receiving (c :: bs) ctx) : Receiving bs (putChar ctx c) := by
  refine ⟨h.sync, rfl, ?_⟩
  have hroom := h.room
  simp only [putChar, len_succ h]
  simp only [length_cons] at hroom
  omega

/-- What `recvChar` does inside a packet with a character that ends nothing. -/
theorem recvChar_put {c : UInt8} {ctx : PocketBusCtx} (hsync : ctx.sync = true)
    (hroom : ctx.len.toNat + (c :: bs).length ≤ pocketbusBuflen) (hc : ctx.escape = true ∨ pocketbusSpecial c = false) :
    recvChar lay ctx c = (putChar ctx c, none) := by
  have hnot : ∀ d, d = pocketbusEsc ∨ d = pocketbusStx ∨ d = pocketbusEtx → ¬ (c = d ∧ ctx.escape = false) := by
    rintro d hd ⟨rfl, he⟩
    rcases hc with hc | hc
    · rw [hc] at he
      cases he
    · simp [pocketbusSpecial, hd] at hc
  simp only [length_cons] at hroom
  rw [recvChar, if_neg (hnot _ (.inr (.inl rfl))), if_pos hsync, if_neg (hnot _ (.inl rfl)),
    if_neg (hnot _ (.inr (.inr rfl))), if_neg (by omega)]
  rfl

theorem recvChar_esc (hsync : ctx.sync = true) (he : ctx.escape = false) :
    recvChar lay ctx pocketbusEsc = ({ ctx with escape := true }, none) := by
  have hstx : ¬ (pocketbusEsc = pocketbusStx ∧ ctx.escape = false) := fun h => absurd h.1 (by decide)
  rw [recvChar, if_neg hstx, if_pos hsync, if_pos ⟨rfl, he⟩]

theorem feed_packet (lay : HdrLayout) (h : Receiving bs ctx) :
    feed (recvChar lay) ctx (stuff pocketbusSpecial pocketbusEsc bs) = (bs.foldl putChar ctx, []) := by
  have hplain : ∀ s c bs, Receiving (c :: bs) s → pocketbusSpecial c = false → recvChar lay s c = (putChar s c, none) :=
    fun s c bs h hc => recvChar_put h.sync h.room (.inr hc)
  refine feed_stuff hplain (fun s c bs h hc => ?_) (fun s c bs h => h.put) h
  refine ⟨_, recvChar_esc h.sync h.escape, ?_⟩
  have hroom : ({ s with escape := true } : PocketBusCtx).len.toNat + (c :: bs).length ≤ pocketbusBuflen := h.room
  exact recvChar_put h.sync hroom (.inl rfl)

/-- The end of a packet accepts the text of a packet. -/
theorem packetEnd_text {pad data : List UInt8} {addr : UInt16} (hpad : pad.length = lay.padding)
    (hbuf : Mem.read ctx.buf 0 (packetText pad addr data).length = packetText pad addr data)
    (hlen : ctx.len.toNat = (packetText pad addr data).length) (hcks : ctx.inCks = rotatingInit) :
    ∃ ctx' msg, packetEnd lay ctx = (ctx', some msg) ∧ msg.addr = addr ∧ msg.len.toNat = data.length ∧
      Mem.read ctx'.buf msg.payload msg.len.toNat = data := by
  have hbody : (packetBody pad addr data).length = lay.sizeofHdr + data.length := by
    simp only [packetBody, beBytes, HdrLayout.sizeofHdr, length_append, length_cons, length_nil, hpad]
    omega
  have htext : (packetText pad addr data).length = (packetBody pad addr data).length + 2 := by
    rw [packetText, length_append]
    rfl
  -- the parts of the packet in the buffer
  rw [packetText, length_append] at hbuf
  obtain ⟨hpart, hsum⟩ := read_eq_append _ _ hbuf
  have hread := hpart
  rw [packetBody, length_append] at hpart
  obtain ⟨hhdr, hdata⟩ := read_eq_append _ _ hpart
  rw [length_append] at hhdr
  obtain ⟨hver, haddr⟩ := read_eq_append _ _ hhdr
  have hsize : 0 + (pocketbusVer :: pad ++ beBytes addr).length = lay.sizeofHdr := by
    simp only [beBytes, HdrLayout.sizeofHdr, length_append, length_cons, length_nil, hpad]
    omega
  have hplace : 0 + (pocketbusVer :: pad).length = 1 + lay.padding := by
    rw [length_cons, hpad]
    omega
  rw [hsize] at hdata
  rw [hplace] at haddr
  simp only [beBytes, length_cons, length_nil, read_succ, read_zero, cons.injEq, and_true]
    at haddr hsum
  rw [length_cons, read_succ] at hver
  -- the length without the checksum
  have hle : UInt16.ofNat sizeofRotating ≤ ctx.len := by
    rw [UInt16.le_iff_toNat_le, hlen, htext]
    show 2 ≤ _
    omega
  have hlen' : (ctx.len - UInt16.ofNat sizeofRotating).toNat = (packetBody pad addr data).length := by
    rw [UInt16.toNat_sub_of_le _ _ hle, hlen, htext]
    rfl
  have hdlen : (UInt16.ofNat ((packetBody pad addr data).length - lay.sizeofHdr)).toNat = data.length := by
    have hmax := ctx.len.toNat_lt
    rw [UInt16.toNat_ofNat', hbody, Nat.add_sub_cancel_left]
    exact Nat.mod_eq_of_lt (by omega)
  have hshort : ¬ ctx.len.toNat < lay.sizeofHdr + sizeofRotating := by
    rw [hlen, htext, hbody, sizeofRotating]
    omega
  rw [packetEnd, if_neg hshort]
  simp only [hlen', hread, hcks]
  rw [Nat.zero_add] at hsum
  rw [hsum.1, hsum.2, word_of_bytes, if_pos rfl, HdrLayout.hdrVer, (cons.inj hver).1, if_pos rfl]
  refine ⟨_, _, rfl, ?_, hdlen, ?_⟩
  · rw [HdrLayout.hdrAddr, haddr.1, show 2 + lay.padding = 1 + lay.padding + 1 by omega, haddr.2, HdrLayout.be16_word]
  · rw [hdlen]
    exact hdata

theorem foldl_putChar (h : Receiving bs ctx) : (bs.foldl putChar ctx).buf = Mem.write ctx.buf ctx.len.toNat bs ∧
      (bs.foldl putChar ctx).len.toNat = ctx.len.toNat + bs.length ∧
      (bs.foldl putChar ctx).sync = true ∧ (bs.foldl putChar ctx).escape = false ∧
      (bs.foldl putChar ctx).inCks = ctx.inCks := by
  induction bs generalizing ctx with
  | nil => exact ⟨(write_nil _ _).symm, rfl, h.sync, h.escape, rfl⟩
  | cons c bs ih =>
    obtain ⟨hbuf, hlen, hsync, hesc, hcks⟩ := ih h.put
    have hput : (putChar ctx c).len.toNat = ctx.len.toNat + 1 := len_succ h
    refine ⟨?_, ?_, hsync, hesc, hcks⟩
    · rw [foldl_cons, hbuf, hput]
      exact write_append ctx.buf ctx.len.toNat [c] bs
    · rw [foldl_cons, hlen, hput, length_cons]
      omega

theorem pocketbusRecv_quiet {ctx' : PocketBusCtx} {cs : List UInt8} (h : feed (recvChar lay) ctx cs = (ctx', []))
    (ds : List UInt8) : pocketbusRecv lay ctx (cs ++ ds) = pocketbusRecv lay ctx' ds := by
  induction cs generalizing ctx with
  | nil =>
    cases h
    rfl
  | cons c cs ih =>
    rw [feed_cons, Prod.mk.injEq, append_eq_nil_iff] at h
    obtain ⟨hs, hc, hcs⟩ := h
    have hchar : recvChar lay ctx c = ((recvChar lay ctx c).1, none) := Prod.ext rfl (by simpa using hc)
    rw [cons_append, pocketbusRecv, hchar]
    exact ih (Prod.ext hs hcs)

theorem receiving_stx (lay : HdrLayout) (he : ctx.escape = false) (hfit : bs.length ≤ pocketbusBuflen) :
    ∃ ctx', recvChar lay ctx pocketbusStx = (ctx', none) ∧ Receiving bs ctx' ∧ ctx'.len = 0 ∧ ctx'.inCks =
      rotatingInit := by
  refine ⟨{ ctx with sync := true, len := 0, inCks := rotatingInit }, ?_, ⟨rfl, he, ?_⟩, rfl, rfl⟩
  · rw [recvChar, if_pos ⟨rfl, he⟩]
  · show 0 + _ ≤ _
    omega

/-- The characters of a packet up to the last one give no message, and the last one gives the one that was sent. -/
theorem feed_text (lay : HdrLayout) {rx : PocketBusCtx} {addr : UInt16} {pad data : List UInt8}
    (hpad : pad.length = lay.padding) (hfit : (packetText pad addr data).length ≤ pocketbusBuflen)
    (he : rx.escape = false) :
    ∃ rx₁ rx₂ msg, feed (recvChar lay) rx (pocketbusStx ::
        stuff pocketbusSpecial pocketbusEsc (packetText pad addr data)) = (rx₁, []) ∧
      pocketbusRecv lay rx₁ [pocketbusEtx] = (some msg, rx₂, []) ∧
      msg.addr = addr ∧ msg.len.toNat = data.length ∧ Mem.read rx₂.buf msg.payload msg.len.toNat = data := by
  obtain ⟨ctx₀, hstx, hrec, hlen₀, hcks₀⟩ := receiving_stx lay he hfit
  obtain ⟨hbuf, hlen₁, hsync, hesc, hcks⟩ := foldl_putChar hrec
  have hfeed := (feed_cons_none _ hstx _).trans (feed_packet lay hrec)
  generalize (packetText pad addr data).foldl putChar ctx₀ = ctx₁ at hbuf hlen₁ hsync hesc hcks hfeed
  rw [hlen₀] at hbuf hlen₁
  have hend : recvChar lay ctx₁ pocketbusEtx = packetEnd lay { ctx₁ with sync := false } := by
    have hstx : ¬ (pocketbusEtx = pocketbusStx ∧ ctx₁.escape = false) := fun h => absurd h.1 (by decide)
    have hescape : ¬ (pocketbusEtx = pocketbusEsc ∧ ctx₁.escape = false) := fun h => absurd h.1 (by decide)
    rw [recvChar, if_neg hstx, if_pos hsync, if_neg hescape, if_pos ⟨rfl, hesc⟩]
  have hread : read ({ ctx₁ with sync := false } : PocketBusCtx).buf 0 (packetText pad addr data).length =
      packetText pad addr data := by
    rw [hbuf]
    exact read_write_self _ _ _
  obtain ⟨rx₂, msg, hmsg, hrest⟩ := packetEnd_text hpad hread (hlen₁.trans (Nat.zero_add _)) (hcks.trans hcks₀)
  exact ⟨ctx₁, rx₂, msg, hfeed, by rw [pocketbusRecv, hend, hmsg], hrest⟩

/-- **Packets survive the wire.** However the characters of a packet come in, the receiver returns no message before the
last one has come, and with it the one that was sent. -/
theorem pocketbusRecv_send (lay : HdrLayout) (tx rx : PocketBusCtx) (addr : UInt16) (pad data p q : List UInt8)
    (hpad : pad.length = lay.padding) (hfit : lay.sizeofHdr + data.length + sizeofRotating ≤ pocketbusBuflen)
    (he : rx.escape = false) (hsent : (pocketbusSend lay pad tx addr data).2 = p ++ q) (hq : q ≠ []) :
    ∃ rx₁ rx₂ msg, pocketbusRecv lay rx p = (none, rx₁, []) ∧ pocketbusRecv lay rx₁ q = (some msg, rx₂, []) ∧
      msg.addr = addr ∧ msg.len.toNat = data.length ∧ Mem.read rx₂.buf msg.payload msg.len.toNat = data := by
  have hlen : (packetText pad addr data).length = lay.sizeofHdr + data.length + sizeofRotating := by
    simp only [packetText, packetBody, beBytes, HdrLayout.sizeofHdr, sizeofRotating, length_append, length_cons,
      length_nil, hpad]
    omega
  obtain ⟨ctx₁, rx₂, msg, hquiet, hlast, hmsg⟩ := feed_text lay hpad (hlen ▸ hfit) he
  rw [pocketbusSend_eq, ← cons_append] at hsent
  obtain ⟨r, hp, rfl⟩ : ∃ r, pocketbusStx :: stuff pocketbusSpecial pocketbusEsc (packetText pad addr data) = p ++ r ∧
      q = r ++ [pocketbusEtx] := by
    rcases eq_nil_or_concat q with rfl | ⟨r, c, rfl⟩
    · exact absurd rfl hq
    · rw [concat_eq_append, ← append_assoc] at hsent
      obtain ⟨hp, hc⟩ := append_inj' hsent rfl
      exact ⟨r, hp, by rw [concat_eq_append, hc]⟩
  rw [hp] at hquiet
  obtain ⟨rx₁, hfst, hsnd⟩ := feed_quiet_split _ hquiet
  refine ⟨rx₁, rx₂, msg, ?_, by rwa [pocketbusRecv_quiet hsnd], hmsg⟩
  have hrecv := pocketbusRecv_quiet hfst []
  rwa [append_nil] at hrecv

/-- The theorem at work: a payload with an `STX` in it, to an address that needs escapes. -/
theorem pocketbusRecv_send_stx : ∃ rx msg,
    pocketbusRecv ⟨1, false⟩ pocketbusInit (pocketbusSend ⟨1, false⟩ [0x55] pocketbusInit 0x0203 [0x02, 0x41]).2 =
        (some msg, rx, []) ∧
      msg.addr = 0x0203 ∧ Mem.read rx.buf msg.payload msg.len.toNat = [0x02, 0x41] := by
  have hne : (pocketbusSend ⟨1, false⟩ [0x55] pocketbusInit 0x0203 [0x02, 0x41]).2 ≠ [] := by
    rw [pocketbusSend_eq]
    exact cons_ne_nil _ _
  obtain ⟨rx₁, rx₂, msg, hfst, hsnd, haddr, -, hdata⟩ := pocketbusRecv_send
    ⟨1, false⟩ pocketbusInit pocketbusInit 0x0203
    [0x55] [0x02, 0x41] [] _ rfl (by decide) rfl rfl hne
  cases hfst
  exact ⟨rx₂, msg, hsnd, haddr, hdata⟩

/-! ### After noise -/

/-- An escape is open only inside a packet, and every character but `ESC` closes it. -/
theorem recvChar_escape (h : ctx.escape = true → ctx.sync = true) (c : UInt8) :
    ((recvChar lay ctx c).1.escape = true → (recvChar lay ctx c).1.sync = true) ∧
      (c ≠ pocketbusEsc → (recvChar lay ctx c).1.escape = false) := by
  have hend : ∀ x, (packetEnd lay x).1.escape = x.escape := by
    intro x
    unfold packetEnd
    dsimp only
    split_ifs <;> rfl
  unfold recvChar
  split_ifs with hstx hsync hesc hetx hroom
  · simp [hstx.2]
  · exact ⟨fun _ => hsync, absurd hesc.1⟩
  · simp [hend, hetx.2]
  · simp
  · simp
  · exact ⟨h, fun _ => by simpa using mt h hsync⟩

/-- **Recovery**: whatever has come in, a packet is received at once if the last character before it is not an `ESC`; so
at most the first packet after noise is lost. -/
theorem pocketbus_recovers (lay : HdrLayout) (tx : PocketBusCtx) (addr : UInt16) (pad data noise : List UInt8)
    (hpad : pad.length = lay.padding) (hfit : (packetText pad addr data).length ≤ pocketbusBuflen)
    (hnoise : ∀ c ∈ noise.getLast?, c ≠ pocketbusEsc) : ∃ rx msg, pocketbusRecv lay
        (feed (recvChar lay) pocketbusInit noise).1 (pocketbusSend lay pad tx addr data).2 = (some msg, rx, []) ∧
      msg.addr = addr ∧ msg.len.toNat = data.length ∧ Mem.read rx.buf msg.payload msg.len.toNat = data := by
  have he : (feed (recvChar lay) pocketbusInit noise).1.escape = false := by
    rcases eq_nil_or_concat noise with rfl | ⟨cs, c, rfl⟩
    · rfl
    · have hopen := (feed_invariant (recvChar lay) (I := fun s => s.escape = true → s.sync = true) (Q := fun _ => True)
        (fun s c h => ⟨(recvChar_escape h c).1, by simp⟩) (s := pocketbusInit) id cs).1
      rw [concat_eq_append] at hnoise ⊢
      rw [feed_append]
      exact (recvChar_escape hopen c).2 (hnoise c (by simp))
  obtain ⟨rx₁, rx, msg, hquiet, hlast, hmsg⟩ := feed_text lay hpad hfit he
  refine ⟨rx, msg, ?_, hmsg⟩
  rw [pocketbusSend_eq, ← cons_append, pocketbusRecv_quiet hquiet, hlast]

theorem pocketbus_recovers_stx : ∃ rx msg, pocketbusRecv ⟨0, false⟩
    (feed (recvChar ⟨0, false⟩) pocketbusInit [2, 27, 3]).1
    (pocketbusSend ⟨0, false⟩ [] pocketbusInit 7 [2]).2 = (some msg, rx, []) ∧ msg.addr = 7 :=
  let ⟨rx, msg, h, ha, _⟩ := pocketbus_recovers ⟨0, false⟩ pocketbusInit 7 [] [2] [2, 27, 3] rfl (by decide)
    (by simp [pocketbusEsc])
  ⟨rx, msg, h, ha⟩

end Recv

end Bertos
