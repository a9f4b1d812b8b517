import Bertos.Algo.Crc16
import Bertos.Lib.Machine

/-!
# XMODEM transfers (`bertos/net/xmodem.c`)

`xmodem_send` and `xmodem_recv` on the two ends of a channel. A message is a block with its check bytes or a single
control byte; messages arrive in order, or are lost as a whole. `kfile_getc` gives the next byte, or `EOF` (`none`)
after a time-out, which may happen between two messages but not inside one. `XmPc` is the place in the loop of the
receiver. Writing to the destination succeeds.

`LOG_INFO` is an inline function when it is disabled, so its arguments are evaluated, the `++blocknr` of the receiver
too. `blocknr`, `last_block_done` and `retries` are `int`s and natural numbers here: the model is of transfers of fewer
than 2^31 blocks.
-/

namespace Bertos

def xmSoh : UInt8 := 0x01
def xmStx : UInt8 := 0x02
def xmEot : UInt8 := 0x04
def xmAck : UInt8 := 0x06
def xmNak : UInt8 := 0x15
def xmC : UInt8 := 0x43
def xmCan : UInt8 := 0x18

/-- `CONFIG_XMODEM_1KCRC`, `CONFIG_XMODEM_MAXRETRIES` and `CONFIG_XMODEM_MAXCRCRETRIES`. -/
structure XmConfig where
  oneK : Bool
  maxRetries : ℕ
  maxCrcRetries : ℕ

/-- `XM_BUFSIZE`. -/
def XmConfig.bufsize (cfg : XmConfig) : ℕ := if cfg.oneK then 1024 else 128

def XmConfig.header (cfg : XmConfig) : UInt8 := if cfg.oneK then xmStx else xmSoh

/-! ## The receiver -/

/-- Where the receiver is: at the loop, or inside a block. -/
inductive XmPc
  | loop
  | number (blocksize : ℕ)
  | complement (blocksize : ℕ) (c : Option UInt8)
  | data (blocksize : ℕ) (buf : List UInt8) (crc : UInt16) (checksum : UInt8)
  | check (buf : List UInt8) (crc : UInt16) (checksum : UInt8)
  | crcLsb (buf : List UInt8) (crc : UInt16)

structure XmRecv where
  blocknr : ℕ
  lastBlockDone : ℕ
  retries : ℕ
  usecrc : Bool
  purge : Bool
  pc : XmPc
  dest : List UInt8
  result : Option Bool

def xmRecvInit : XmRecv := ⟨0, 0, 0, true, true, .loop, [], none⟩

/-- `purge = true; break;`. -/
def XmRecv.toPurge (r : XmRecv) : XmRecv := { r with purge := true, pc := .loop }

/-- The block is good: it is written and acknowledged, unless it has been before. -/
def XmRecv.accept (r : XmRecv) (buf : List UInt8) : XmRecv × List UInt8 :=
  if r.lastBlockDone < r.blocknr then
    ({ r with dest := r.dest ++ buf, retries := 0, lastBlockDone := r.blocknr, pc := .loop }, [xmAck])
  else ({ r with pc := .loop }, [])

/-- `~c & 0xff`. -/
def complementOf : Option UInt8 → UInt8
  | none => 0
  | some c => ~~~c

/-- The block number and its complement are there. -/
def XmRecv.header (r : XmRecv) (blocksize : ℕ) (c c' : Option UInt8) : XmRecv :=
  if some (complementOf c) ≠ c' then r.toPurge
  else if c = some (UInt8.ofNat r.blocknr) then { r with pc := .data blocksize [] 0 0 }
  else if c = some (UInt8.ofNat (r.blocknr + 1)) then
    { r with blocknr := r.blocknr + 1, pc := .data blocksize [] 0 0 }
  else r.toPurge

/-- What the receiver does with what `kfile_getc` returns, and what it sends. -/
def recvGot (cfg : XmConfig) (r : XmRecv) (c : Option UInt8) : XmRecv × List UInt8 :=
  match r.pc, c with
  | .loop, none => (r.toPurge, [])
  | .loop, some b =>
    if cfg.oneK ∧ b = xmStx then ({ r with pc := .number 1024 }, [])
    else if b = xmSoh then ({ r with pc := .number 128 }, [])
    else if b = xmEot then ({ r with result := some true }, [xmAck])
    else (r.toPurge, [])
  | .number blocksize, c => ({ r with pc := .complement blocksize c }, [])
  | .complement blocksize c, c' => (r.header blocksize c c', [])
  | .data _ _ _ _, none => (r.toPurge, [])
  | .data blocksize buf crc checksum, some b =>
    let crc := if r.usecrc then updcrc16 b crc else crc
    let checksum := if r.usecrc then checksum else checksum + b
    if (buf ++ [b]).length < blocksize then ({ r with pc := .data blocksize (buf ++ [b]) crc checksum }, [])
    else ({ r with pc := .check (buf ++ [b]) crc checksum }, [])
  | .check _ _ _, none => (r.toPurge, [])
  | .check buf crc checksum, some b =>
    if r.usecrc then ({ r with pc := .crcLsb buf (updcrc16 b crc) }, [])
    else if b ≠ checksum then (r.toPurge, [])
    else r.accept buf
  | .crcLsb _ _, none => (r.toPurge, [])
  | .crcLsb buf crc, some b => if updcrc16 b crc ≠ 0 then (r.toPurge, []) else r.accept buf

/-- After `kfile_resync`: another try. -/
def recvPurge (cfg : XmConfig) (r : XmRecv) : XmRecv × List UInt8 :=
  let r : XmRecv := { r with purge := false, retries := r.retries + 1 }
  if cfg.maxRetries ≤ r.retries then ({ r with result := some false }, [xmCan, xmCan])
  else if r.blocknr = 0 then
    if r.retries < cfg.maxCrcRetries then (r, [xmC])
    else ({ r with usecrc := false }, [xmNak])
  else (r, [xmNak])

/-! ## The sender -/

/-- The part of the file that has not been read, and the block that has been. -/
structure XmSend where
  file : List UInt8
  buf : List UInt8
  blocknr : ℕ
  retries : ℕ
  usecrc : Bool
  result : Option Bool

/-- `kfile_read(fd, block_buffer, XM_BUFSIZE)`. -/
def XmSend.readBlock (s : XmSend) (cfg : XmConfig) : XmSend :=
  { s with file := s.file.drop cfg.bufsize, buf := s.file.take cfg.bufsize }

def xmSendInit (cfg : XmConfig) (file : List UInt8) : XmSend :=
  XmSend.readBlock ⟨file, [], 1, 0, false, none⟩ cfg

/-- What the sender does with what `kfile_getc` returns, and whether it proceeds to send. -/
def sendGot (cfg : XmConfig) (s : XmSend) : Option UInt8 → XmSend × Bool
  | none =>
    if s.retries + 1 ≤ cfg.maxRetries then ({ s with retries := s.retries + 1 }, false)
    else ({ s with retries := s.retries + 1, result := some false }, false)
  | some c =>
    if c = xmNak then (s, true)
    else if c = xmC then ({ s with usecrc := true }, true)
    else if c = xmAck then
      if s.buf.length = 0 then ({ s with result := some true }, false)
      else ({ s.readBlock cfg with blocknr := s.blocknr + 1, retries := 0 }, true)
    else if c = xmCan then ({ s with result := some false }, false)
    else (s, false)

def checkBytes (usecrc : Bool) (block : List UInt8) : List UInt8 :=
  if usecrc then [(crc16 0 block >>> 8).toUInt8, (crc16 0 block).toUInt8]
  else [block.foldl (fun sum c => sum + c) 0]

def blockMessage (cfg : XmConfig) (blocknr : ℕ) (usecrc : Bool) (block : List UInt8) : List UInt8 :=
  cfg.header :: UInt8.ofNat blocknr :: ~~~UInt8.ofNat blocknr :: (block ++ checkBytes usecrc block)

/-- What the sender sends: `XM_EOT`, or the block, padded with `0xFF`. -/
def XmSend.message (s : XmSend) (cfg : XmConfig) : List UInt8 :=
  if s.buf.length = 0 then [xmEot]
  else blockMessage cfg s.blocknr s.usecrc (s.buf ++ List.replicate (cfg.bufsize - s.buf.length) 0xFF)

/-! ## Both ends and the channel -/

/-- `cur` is the rest of the message that the receiver is reading. -/
structure XmState where
  send : XmSend
  recv : XmRecv
  cur : List UInt8
  toRecv : List (List UInt8)
  toSend : List UInt8

inductive XmAct
  | sendGet
  | sendTimeout
  | sendAbort
  | recvGet
  | recvTimeout
  /-- `kfile_resync`, by which this many messages more are discarded. -/
  | recvPurge (discarded : ℕ)
  | recvAbort
  | loseToRecv (i : ℕ)
  | loseToSend (i : ℕ)

/-- The next byte for the receiver, and what is left of its message and of the others. -/
def nextByte : List UInt8 → List (List UInt8) → Option (UInt8 × List UInt8 × List (List UInt8))
  | b :: cur, msgs => some (b, cur, msgs)
  | [], (b :: cur) :: msgs => some (b, cur, msgs)
  | [], _ => none

def XmState.sendGot (x : XmState) (cfg : XmConfig) (c : Option UInt8) : XmState :=
  let r := Bertos.sendGot cfg x.send c
  { x with send := r.1, toRecv := if r.2 then x.toRecv ++ [r.1.message cfg] else x.toRecv }

def XmState.recvGot (x : XmState) (cfg : XmConfig) (c : Option UInt8) : XmState :=
  let r := Bertos.recvGot cfg x.recv c
  { x with recv := r.1, toSend := x.toSend ++ r.2 }

/-- The receiver is about to call `kfile_getc` in its loop or in a block. -/
def XmRecv.Waits (r : XmRecv) : Prop := r.result = none ∧ r.purge = false

instance (r : XmRecv) : Decidable r.Waits := inferInstanceAs (Decidable (_ ∧ _))

/-- The receiver is at the beginning of its loop, and has to purge. -/
def XmRecv.Purges (r : XmRecv) : Prop := r.result = none ∧ r.purge = true

instance (r : XmRecv) : Decidable r.Purges := inferInstanceAs (Decidable (_ ∧ _))

/-- The receiver is at the beginning of its loop. -/
def XmRecv.AtLoop (r : XmRecv) : Bool :=
  match r.pc with
  | .loop => r.result.isNone
  | _ => false

def xmStep (cfg : XmConfig) (x : XmState) : XmAct → Option (XmState × List Unit)
  | .sendGet =>
    match x.toSend with
    | c :: cs => if x.send.result = none then some ({ x with toSend := cs }.sendGot cfg (some c), []) else none
    | [] => none
  | .sendTimeout => if x.send.result = none then some (x.sendGot cfg none, []) else none
  | .sendAbort =>
    if x.send.result = none then some ({ x with send := { x.send with result := some false } }, []) else none
  | .recvGet =>
    if x.recv.Waits then
      (nextByte x.cur x.toRecv).map fun r => ({ x with cur := r.2.1, toRecv := r.2.2 }.recvGot cfg (some r.1), [])
    else none
  | .recvTimeout => if x.recv.Waits ∧ x.cur = [] then some (x.recvGot cfg none, []) else none
  | .recvPurge discarded =>
    if x.recv.Purges then
      some ({ x with
        recv := (recvPurge cfg x.recv).1, cur := [], toRecv := x.toRecv.drop discarded,
        toSend := x.toSend ++ (recvPurge cfg x.recv).2 }, [])
    else none
  | .recvAbort =>
    if x.recv.AtLoop then
      some ({ x with recv := { x.recv with result := some false }, toSend := x.toSend ++ [xmCan, xmCan] }, [])
    else none
  | .loseToRecv i => some ({ x with toRecv := x.toRecv.eraseIdx i }, [])
  | .loseToSend i => some ({ x with toSend := x.toSend.eraseIdx i }, [])

def xmMachine (cfg : XmConfig) (file : List UInt8) : Machine XmState XmAct Unit where
  init := fun x => x = ⟨xmSendInit cfg file, xmRecvInit, [], [], []⟩
  step := xmStep cfg

/-- The file, padded with `0xFF` to a multiple of `XM_BUFSIZE`. -/
def xmPadded (cfg : XmConfig) (file : List UInt8) : List UInt8 :=
  file ++ List.replicate ((cfg.bufsize - file.length % cfg.bufsize) % cfg.bufsize) 0xFF

end Bertos
