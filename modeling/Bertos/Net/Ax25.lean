import Bertos.Lib.Bits
import Bertos.Lib.Mem
import Bertos.Lib.Receiver
import Bertos.Algo.CrcCcitt

/-!
# AX.25 (`bertos/net/ax25.c`)

A frame is a list of call signs (destination, source, repeaters), a control byte, a protocol byte, the payload and a
CRC, between two flags; each flag, reset and escape character of the frame has an escape in front. The last call sign is
marked in bit 0 of its last byte. `size_t` has 32 bits; the context has a hook and logging is left out.

The model is of a build with `CONFIG_AX25_RPT_LST`.
-/

namespace Bertos

open Receiver (stuff feed)

def ax25MinFrameLen : ℕ := 18
def ax25CrcCorrect : UInt16 := 0xF0B8
def ax25MaxRpt : ℕ := 8
def ax25CtrlUi : UInt8 := 0x03
def ax25PidNolayer3 : UInt8 := 0xF0
def hdlcFlag : UInt8 := 0x7E
def hdlcReset : UInt8 := 0x7F
def ax25Esc : UInt8 := 0x1B

/-- `CONFIG_AX25_FRAME_BUF_LEN`. -/
def ax25FrameBufLen : ℕ := 330

structure AX25Ctx where
  buf : ℕ → UInt8
  frmLen : ℕ
  crcIn : UInt16
  crcOut : UInt16
  sync : Bool
  escape : Bool

/-- A call sign; `call` is an array of 6 characters. -/
structure AX25Call where
  call : List UInt8
  ssid : UInt8

/-- A message; `rptLst` are the `rpt_cnt` repeaters, and `info` is a place in the buffer of the context. -/
structure AX25Msg where
  src : AX25Call
  dst : AX25Call
  rptLst : List AX25Call
  rptFlags : UInt8
  ctrl : UInt8
  pid : UInt8
  info : ℕ
  len : UInt32

/-- `sizeof(addr->call)`. -/
def sizeofCall : ℕ := 6

/-! ## Receiving -/

section Decode

variable (buf : ℕ → UInt8)

/-- One character of `DECODE_CALL`. -/
def decodeChar (b : UInt8) : UInt8 := if b >>> 1 = 0x20 then 0 else b >>> 1

/-- `DECODE_CALL`, from the place `pos` on. -/
def decodeCall (pos : ℕ) : List UInt8 := (Mem.read buf pos sizeofCall).map decodeChar

def decodeSsid (pos : ℕ) : UInt8 := (buf pos >>> 1) &&& 0x0F

/-- `AX25_SET_REPEATED`. -/
def setRepeated (flags : UInt8) (idx : ℕ) (val : UInt8) : UInt8 :=
  if val ≠ 0 then flags ||| (1 <<< UInt8.ofNat idx) else flags &&& ~~~(1 <<< UInt8.ofNat idx)

/-- `AX25_REPEATED`. -/
def AX25Msg.repeated (msg : AX25Msg) (idx : ℕ) : Bool := msg.rptFlags &&& (1 <<< UInt8.ofNat idx) ≠ 0

/-- The loop over the repeaters, at the last byte of the call sign before; `n` is the room that is left in the list, and
`cnt` is `rpt_cnt`. With the repeaters and their flags, the place behind the address. -/
def decodeRpt : (n cnt pos : ℕ) → (flags : UInt8) → List AX25Call × UInt8 × ℕ
  | 0, _, pos, flags => ([], flags, pos + 1)
  | n + 1, cnt, pos, flags =>
    if buf pos &&& 0x01 = 0 then
      let call : AX25Call := ⟨decodeCall buf (pos + 1), decodeSsid buf (pos + 7)⟩
      let (rpts, flags, pos) := decodeRpt n (cnt + 1) (pos + 7) (setRepeated flags cnt (buf (pos + 7) &&& 0x80))
      (call :: rpts, flags, pos)
    else ([], flags, pos + 1)

end Decode

/-- `ax25_decode`: the message for the hook. `junk` is what `rpt_flags` is before it is set. -/
def ax25Decode (junk : UInt8) (ctx : AX25Ctx) : Option AX25Msg :=
  let dst : AX25Call := ⟨decodeCall ctx.buf 0, decodeSsid ctx.buf 6⟩
  let src : AX25Call := ⟨decodeCall ctx.buf 7, decodeSsid ctx.buf 13⟩
  let (rpts, flags, pos) := decodeRpt ctx.buf ax25MaxRpt 0 13 junk
  if ctx.buf pos = ax25CtrlUi then
    if ctx.buf (pos + 1) = ax25PidNolayer3 then
      some ⟨src, dst, rpts, flags, ctx.buf pos, ctx.buf (pos + 1), pos + 2,
        UInt32.ofNat ctx.frmLen - 2 - UInt32.ofNat (pos + 2)⟩
    else none
  else none

/-- A call of the hook: the context that it sees, and the message. -/
structure HookCall where
  ctx : AX25Ctx
  msg : AX25Msg

/-- One turn of the loop of `ax25_poll`. -/
def pollChar (junk : AX25Ctx → UInt8) (ctx : AX25Ctx) (c : UInt8) : AX25Ctx × Option HookCall :=
  if ctx.escape = false ∧ c = hdlcFlag then
    ({ ctx with sync := true, crcIn := crcCcittInitVal, frmLen := 0 },
      if ax25MinFrameLen ≤ ctx.frmLen then
        if ctx.crcIn = ax25CrcCorrect then (ax25Decode (junk ctx) ctx).map (⟨ctx, ·⟩) else none
      else none)
  else if ctx.escape = false ∧ c = hdlcReset then ({ ctx with sync := false }, none)
  else if ctx.escape = false ∧ c = ax25Esc then ({ ctx with escape := true }, none)
  else if ctx.sync then
    if ctx.frmLen < ax25FrameBufLen then
      ({ ctx with buf := Mem.write ctx.buf ctx.frmLen [c], frmLen := ctx.frmLen + 1, crcIn := updcrcCcitt c ctx.crcIn,
                  escape := false }, none)
    else ({ ctx with sync := false, escape := false }, none)
  else ({ ctx with escape := false }, none)

/-- `ax25_poll` on the characters that the channel has, with the calls of the hook. -/
def ax25Poll (junk : AX25Ctx → UInt8) (ctx : AX25Ctx) (cs : List UInt8) : AX25Ctx × List HookCall :=
  feed (pollChar junk) ctx cs

def ax25Init : AX25Ctx := ⟨fun _ => 0, 0, crcCcittInitVal, crcCcittInitVal, false, false⟩

/-! ## Sending -/

/-- The characters are those that go to the channel. -/
def ax25Putchar (ctx : AX25Ctx) (c : UInt8) : AX25Ctx × List UInt8 :=
  ({ ctx with crcOut := updcrcCcitt c ctx.crcOut },
    if c = hdlcFlag ∨ c = hdlcReset ∨ c = ax25Esc then [ax25Esc, c] else [c])

/-- A loop of `ax25_putchar`. -/
def ax25Puts (ctx : AX25Ctx) : List UInt8 → AX25Ctx × List UInt8
  | [] => (ctx, [])
  | c :: cs =>
    let (ctx₁, out₁) := ax25Putchar ctx c
    let (ctx₂, out₂) := ax25Puts ctx₁ cs
    (ctx₂, out₁ ++ out₂)

def toupper (c : UInt8) : UInt8 := if 97 ≤ c ∧ c ≤ 122 then c - 32 else c

/-- Bits 5 and 6 are always set, and bit 0 in the last call sign. -/
def callSsid (addr : AX25Call) (last : Bool) : UInt8 :=
  (0x60 : UInt8) ||| (addr.ssid <<< 1) ||| (if last then 0x01 else 0)

/-- The bytes of a call sign: `MIN(sizeof(addr->call), strlen(addr->call))` characters, blanks, and the SSID. -/
def callBytes (addr : AX25Call) (last : Bool) : List UInt8 :=
  let name := (addr.call.take sizeofCall).takeWhile (· ≠ 0)
  name.map (fun c => toupper c <<< 1) ++ List.replicate (sizeofCall - name.length) ((0x20 : UInt8) <<< 1) ++
    [callSsid addr last]

def ax25SendCall (ctx : AX25Ctx) (addr : AX25Call) (last : Bool) : AX25Ctx × List UInt8 :=
  ax25Puts ctx (callBytes addr last)

def ax25SendPath (ctx : AX25Ctx) : List AX25Call → AX25Ctx × List UInt8
  | [] => (ctx, [])
  | addr :: path =>
    let (ctx₁, out₁) := ax25SendCall ctx addr path.isEmpty
    let (ctx₂, out₂) := ax25SendPath ctx₁ path
    (ctx₂, out₁ ++ out₂)

def ax25SendVia (ctx : AX25Ctx) (path : List AX25Call) (buf : List UInt8) : AX25Ctx × List UInt8 :=
  let (ctx, out₁) := ax25SendPath { ctx with crcOut := crcCcittInitVal } path
  let (ctx, out₂) := ax25Putchar ctx ax25CtrlUi
  let (ctx, out₃) := ax25Putchar ctx ax25PidNolayer3
  let (ctx, out₄) := ax25Puts ctx buf
  let crcl := (ctx.crcOut &&& 0xff).toUInt8 ^^^ 0xff
  let crch := (ctx.crcOut >>> 8).toUInt8 ^^^ 0xff
  let (ctx, out₅) := ax25Putchar ctx crcl
  let (ctx, out₆) := ax25Putchar ctx crch
  (ctx, hdlcFlag :: out₁ ++ out₂ ++ out₃ ++ out₄ ++ out₅ ++ out₆ ++ [hdlcFlag])

end Bertos
