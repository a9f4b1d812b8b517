import Bertos.Lib.Machine
import Bertos.Net.Ax25

/-!
# The bit layer of the AFSK modem (`bertos/net/afsk.c`)

The transmitter is a writer, which puts bytes into the tx FIFO, and the DAC interrupt, which takes one byte after the
other and chooses a tone for each of its bits: the other tone for a 0, the same one for a 1. Five ones are followed by
an extra 0, but not in a flag that is not escaped. The receiver of the bits is `hdlcParse`.

FIFOs are lists; the DAC samples are left out. The interrupt runs only while `AFSK_DAC_IRQ_START` is in effect, which
is while `sending` is set.
-/

namespace Bertos

/-! ## Receiving bits -/

structure Hdlc where
  demodBits : UInt8
  bitIdx : UInt8
  currchar : UInt8
  rxstart : Bool
deriving DecidableEq

/-- The end of a character: with an escape, if it needs one. `full n` is whether the FIFO is full after `n` bytes that
this call has pushed. -/
def hdlcPushChar (full : ℕ → Bool) (hdlc : Hdlc) : Hdlc × List UInt8 × Bool :=
  let c := hdlc.currchar
  let special := decide (c = hdlcFlag ∨ c = hdlcReset ∨ c = ax25Esc)
  let esc := if special && !full 0 then [ax25Esc] else []
  let out := if full esc.length then esc else esc ++ [c]
  let ok := !(special && full 0) && !full esc.length
  ({ hdlc with currchar := 0, bitIdx := 0, rxstart := hdlc.rxstart && ok }, out, ok)

/-- `hdlc_parse`, with the bytes that it pushes and the value that it returns. -/
def hdlcParse (full : ℕ → Bool) (hdlc : Hdlc) (bit : Bool) : Hdlc × List UInt8 × Bool :=
  let demodBits := (hdlc.demodBits <<< 1) ||| (if bit then 1 else 0)
  let hdlc : Hdlc := { hdlc with demodBits := demodBits }
  if demodBits = hdlcFlag then
    if full 0 then ({ hdlc with rxstart := false, currchar := 0, bitIdx := 0 }, [], false)
    else ({ hdlc with rxstart := true, currchar := 0, bitIdx := 0 }, [hdlcFlag], true)
  else if demodBits &&& hdlcReset = hdlcReset then ({ hdlc with rxstart := false }, [], true)
  else if hdlc.rxstart = false then (hdlc, [], true)
  else if demodBits &&& 0x3f = 0x3e then (hdlc, [], true)
  else
    let currchar := if demodBits &&& 0x01 ≠ 0 then hdlc.currchar ||| 0x80 else hdlc.currchar
    if 8 ≤ hdlc.bitIdx + 1 then hdlcPushChar full { hdlc with currchar := currchar, bitIdx := hdlc.bitIdx + 1 }
    else ({ hdlc with currchar := currchar >>> 1, bitIdx := hdlc.bitIdx + 1 }, [], true)

/-- The bytes that a sequence of bits pushes into a FIFO that never fills. -/
def hdlcRun (hdlc : Hdlc) : List Bool → Hdlc × List UInt8
  | [] => (hdlc, [])
  | bit :: bits =>
    ((hdlcRun (hdlcParse (fun _ => false) hdlc bit).1 bits).1,
      (hdlcParse (fun _ => false) hdlc bit).2.1 ++ (hdlcRun (hdlcParse (fun _ => false) hdlc bit).1 bits).2)

def hdlcInit : Hdlc := ⟨0, 0, 0, false⟩

/-! ## Sending bits -/

def divRound (dividend divisor : ℕ) : ℕ := (dividend + divisor / 2) / divisor

def bitrate : ℕ := 1200
def dacSamplerate : ℕ := 9600
def sinLen : ℕ := 512
def markInc : UInt16 := UInt16.ofNat (divRound (sinLen * 1200) dacSamplerate)
def spaceInc : UInt16 := UInt16.ofNat (divRound (sinLen * 2200) dacSamplerate)
def dacSampleperbit : UInt8 := UInt8.ofNat (dacSamplerate / bitrate)

/-- The number of flags of the preamble and of the trailer. -/
def afskPreamble : UInt16 := UInt16.ofNat (divRound (300 * bitrate) 8000)
def afskTrailer : UInt16 := UInt16.ofNat (divRound (50 * bitrate) 8000)

def bitStuffLen : UInt8 := 5

/-- `CONFIG_AFSK_TX_BUFLEN`. -/
def afskTxBuflen : ℕ := 32

structure Afsk where
  sampleCount : UInt8
  currOut : UInt8
  txBit : UInt8
  bitStuff : Bool
  stuffCnt : UInt8
  phaseInc : UInt16
  txFifo : List UInt8
  sending : Bool
  preambleLen : UInt16
  trailerLen : UInt16

def afskInit : Afsk := ⟨0, 0, 0, false, 0, markInc, [], false, 0, 0⟩

def switchTone (inc : UInt16) : UInt16 := if inc = markInc then spaceInc else markInc

def afskTxStart (af : Afsk) : Afsk :=
  let af := if af.sending then af else
    { af with phaseInc := markInc, stuffCnt := 0, sending := true, preambleLen := afskPreamble }
  { af with trailerLen := afskTrailer }

/-- A new character; `false` if there is none and the interrupt is stopped. -/
def nextChar (af : Afsk) : Bool × Afsk :=
  if af.txFifo.isEmpty ∧ af.trailerLen = 0 then (false, { af with sending := false })
  else
    let af : Afsk := { af with stuffCnt := if af.bitStuff then af.stuffCnt else 0, bitStuff := true }
    let af : Afsk :=
      if af.preambleLen = 0 then
        match af.txFifo with
        | [] => { af with trailerLen := af.trailerLen - 1, currOut := hdlcFlag }
        | c :: fifo => { af with txFifo := fifo, currOut := c }
      else { af with preambleLen := af.preambleLen - 1, currOut := hdlcFlag }
    if af.currOut = ax25Esc then
      match af.txFifo with
      | [] => (false, { af with sending := false })
      | c :: fifo => (true, { af with txFifo := fifo, currOut := c, txBit := 0x01 })
    else if af.currOut = hdlcFlag ∨ af.currOut = hdlcReset then (true, { af with bitStuff := false, txBit := 0x01 })
    else (true, { af with txBit := 0x01 })

def sendBit (af : Afsk) : Afsk :=
  if af.bitStuff ∧ bitStuffLen ≤ af.stuffCnt then { af with stuffCnt := 0, phaseInc := switchTone af.phaseInc }
  else if af.currOut &&& af.txBit ≠ 0 then { af with stuffCnt := af.stuffCnt + 1, txBit := af.txBit <<< 1 }
  else { af with stuffCnt := 0, phaseInc := switchTone af.phaseInc, txBit := af.txBit <<< 1 }

/-- `afsk_dac_isr`, with the tone, if a bit begins. -/
def afskDacIsr (af : Afsk) : Afsk × Option UInt16 :=
  if af.sampleCount = 0 then
    match (if af.txBit = 0 then nextChar af else (true, af)) with
    | (false, af) => (af, none)
    | (true, af) => ({ sendBit af with sampleCount := dacSampleperbit - 1 }, some (sendBit af).phaseInc)
  else ({ af with sampleCount := af.sampleCount - 1 }, none)

/-! ## The transmitter as a machine -/

/-- The modem and a process in `afsk_write`: the bytes that are still to be pushed, and whether a byte has been pushed
and `afsk_txStart` is to follow. -/
structure Modem where
  af : Afsk
  todo : List UInt8
  pushed : Bool

inductive ModemAct
  | push
  | start
  | isr
deriving DecidableEq

def modemStep (m : Modem) : ModemAct → Option (Modem × List UInt16)
  | .push =>
    match m.pushed, m.todo with
    | false, c :: cs =>
      if m.af.txFifo.length < afskTxBuflen - 1 then
        some ({ m with af := { m.af with txFifo := m.af.txFifo ++ [c] }, todo := cs, pushed := true }, [])
      else none
    | _, _ => none
  | .start => if m.pushed then some ({ m with af := afskTxStart m.af, pushed := false }, []) else none
  | .isr => if m.af.sending then some ({ m with af := (afskDacIsr m.af).1 }, (afskDacIsr m.af).2.toList) else none

/-- The modem after `afsk_init`, and a process that writes these bytes; the events are the tones. -/
def modem (bytes : List UInt8) : Machine Modem ModemAct UInt16 where
  init := fun m => m = ⟨afskInit, bytes, false⟩
  step := modemStep

def nrzi : UInt16 → List UInt16 → List Bool
  | _, [] => []
  | tone, tone' :: tones => decide (tone' = tone) :: nrzi tone' tones

def Modem.Done (m : Modem) : Prop := m.todo = [] ∧ m.pushed = false

/-- The interrupt needs a character, and the FIFO has run empty before the end. -/
def Modem.Starved (m : Modem) : Prop :=
  ¬ m.Done ∧ m.af.sampleCount = 0 ∧ m.af.txBit = 0 ∧ m.af.preambleLen = 0 ∧ (m.af.txFifo = [] ∨ m.af.txFifo = [ax25Esc])

/-- The interrupt never finds the FIFO empty before the end. -/
def fed (m : Modem) (a : ModemAct) : Prop := a = .isr → ¬ m.Starved

instance (m : Modem) : Decidable m.Done := inferInstanceAs (Decidable (_ ∧ _))
instance (m : Modem) : Decidable m.Starved := inferInstanceAs (Decidable (_ ∧ _))
instance (m : Modem) (a : ModemAct) : Decidable (fed m a) := inferInstanceAs (Decidable (_ → _))

/-- What is written: a flag, or a byte of data. -/
inductive HdlcItem
  | flag
  | data (b : UInt8)

/-- The bytes of an item: an escape in front of a special byte. -/
def HdlcItem.bytes : HdlcItem → List UInt8
  | .flag => [hdlcFlag]
  | .data b => if b = hdlcFlag ∨ b = hdlcReset ∨ b = ax25Esc then [ax25Esc, b] else [b]

def itemBytes (items : List HdlcItem) : List UInt8 := items.flatMap HdlcItem.bytes

end Bertos
