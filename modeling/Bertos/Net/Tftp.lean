import Bertos.Lib.Mem

/-!
# The TFTP server (`bertos/net/tftp.c`)

A session receives one file by write request. The socket is a list of `NetEvent`s still to come, one for each wait; a
call that finds the list empty waits for ever. Every event carries the value the sockets leave in `errno`. What is sent
is recorded in order.

Sizes are `size_t` values of 32 bits. `memcpy` out of the frame may run past its end: the bytes found there are given
by `ram`, an arbitrary function.
-/

namespace Bertos

structure SockAddr where
  ip : UInt32
  port : UInt16
  deriving DecidableEq, Repr

/-- What one wait on the socket meets: `lwip_select` returns `0` or `-1`, `lwip_recvfrom` returns `-1`, or a datagram
arrives. `sendOk` tells whether an acknowledgement sent in reply goes out, `errno` what is left there afterwards. -/
inductive NetEvent
  | timeout (errno : ℤ)
  | selectError (errno : ℤ)
  | recvError (errno : ℤ)
  | datagram (src : SockAddr) (bytes : List UInt8) (sendOk : Bool) (errno : ℤ)
  deriving DecidableEq, Repr

/-- What is sent: an acknowledgement with a block number, an error frame with a text. -/
inductive Sent
  | ack (dest : SockAddr) (block : ℕ)
  | error (dest : SockAddr) (msg : List UInt8)
  deriving DecidableEq, Repr

structure Net where
  events : List NetEvent
  errno : ℤ
  sent : List Sent

/-- `TFTP_PACKET_SIZE`, which is also the size of a `Tftpframe`. -/
def tftpPacketSize : ℕ := 516

/-- The size of a `TftpHeader`. -/
def tftpHeaderSize : ℕ := 4

def tftpErr : ℤ := -1
def tftpErrTimeout : ℤ := -2
def tftpReadmodeErr : ℤ := -3

structure TftpSession where
  addr : SockAddr
  block : ℕ
  error : ℤ
  frame : ℕ → UInt8
  bytesAvailable : ℕ
  validData : ℕ
  isXferEnd : Bool
  pendingAck : Bool
  errorMsg : List UInt8

/-- A 16-bit field of the frame, in network order. -/
def frameWord (frame : ℕ → UInt8) (i : ℕ) : ℕ := (frame i).toNat * 256 + (frame (i + 1)).toNat

/-- The opcodes `TFTP_WRQ` and `TFTP_DATA`. -/
def opWrq : ℕ := 2
def opData : ℕ := 3

inductive Check
  | ok
  | dup
  | err
  deriving DecidableEq, Repr

/-- The verdict of `checkPacket` on a frame, before the acknowledgement is sent, when `block` blocks are accepted. -/
def frameVerdict (block : ℕ) (frame : ℕ → UInt8) : Check :=
  if frameWord frame 0 = opData then
    let receivedBlock := frameWord frame 2
    if receivedBlock > block + 1 then .err
    else if receivedBlock < block + 1 then .dup
    else .ok
  else if frameWord frame 0 = opWrq ∧ block = 0 then .dup
  else .err

/-- Check the received frame and acknowledge it. -/
def checkPacket (s : TftpSession) (sendOk : Bool) : Check × TftpSession × List Sent :=
  match frameVerdict s.block s.frame with
  | .err => (.err, s, [])
  | v =>
    let s' := if v = .ok then { s with block := (s.block + 1) % 65536 } else s
    if sendOk then (v, s', [.ack s'.addr s'.block]) else (.err, s', [])

/-- The frame after a datagram has been received into it. -/
def recvFrame (frame : ℕ → UInt8) (dg : List UInt8) : ℕ → UInt8 := Mem.write frame 0 (dg.take tftpPacketSize)

/-- The loop of `tftp_readPacket`: the value returned, `none` while it waits. -/
def tftpReadPacketLoop : List NetEvent → ℤ → List Sent → TftpSession → Option ℤ × TftpSession × Net
  | [], errno, sent, s => (none, s, ⟨[], errno, sent⟩)
  | .timeout e :: evs, _, sent, s => (some tftpErrTimeout, s, ⟨evs, e, sent⟩)
  | .selectError e :: evs, _, sent, s => (some tftpErr, s, ⟨evs, e, sent⟩)
  | .recvError e :: evs, _, sent, s => (some tftpErr, s, ⟨evs, e, sent⟩)
  | .datagram _ dg sendOk e :: evs, _, sent, s =>
    let rlen := min dg.length tftpPacketSize
    let s' := { s with frame := recvFrame s.frame dg }
    if rlen = 0 then (some tftpErr, s', ⟨evs, e, sent⟩)
    else
      match checkPacket s' sendOk with
      | (.ok, s'', out) => (some rlen, s'', ⟨evs, e, sent ++ out⟩)
      | (.dup, s'', out) => tftpReadPacketLoop evs e (sent ++ out) s''
      | (.err, s'', out) => (some tftpErr, s'', ⟨evs, e, sent ++ out⟩)

def tftpReadPacket (s : TftpSession) (n : Net) : Option ℤ × TftpSession × Net :=
  tftpReadPacketLoop n.events n.errno n.sent s

section Read

variable (ram : TftpSession → ℕ → UInt8)

/-- `memcpy(.., fds->frame.data + offset, size)`. -/
def frameData (s : TftpSession) (offset size : ℕ) : List UInt8 :=
  Mem.read (fun i => if i < tftpPacketSize then s.frame i else ram s i) (tftpHeaderSize + offset) size

/-- The acknowledgement of the write request that the first read sends. -/
def sendPendingAck (s : TftpSession) (n : Net) : TftpSession × Net :=
  if s.pendingAck then ({ s with pendingAck := false }, { n with sent := n.sent ++ [.ack s.addr s.block] })
  else (s, n)

/-- The bytes read, `none` while the call waits. -/
def tftpRead (s₀ : TftpSession) (n₀ : Net) (size : ℕ) : Option (List UInt8) × TftpSession × Net :=
  let offset := s₀.validData - s₀.bytesAvailable
  match sendPendingAck s₀ n₀ with
  | (s, n) =>
    if s.bytesAvailable < size then
      let pre := frameData ram s offset s.bytesAvailable
      let size' := size - s.bytesAvailable
      if s.isXferEnd then (some pre, { s with bytesAvailable := 0, validData := 0 }, n)
      else
        match tftpReadPacket s n with
        | (none, s', n') => (none, s', n')
        | (some rd, s', n') =>
          if rd < 0 then (some [], { s' with bytesAvailable := 0, error := n'.errno }, n')
          else
            let avail := (rd.toNat + 4294967296 - tftpHeaderSize) % 4294967296
            let res := min avail size'
            (some (pre ++ frameData ram s' 0 res),
              { s' with
                isXferEnd := decide (rd < tftpPacketSize)
                bytesAvailable := avail - res
                validData := avail }, n')
    else (some (frameData ram s offset size), { s with bytesAvailable := s.bytesAvailable - size }, n)

end Read

/-- `kfile_error` of a session. -/
def tftpError (s : TftpSession) : ℤ := s.error

def tftpSetErrorMsg (s : TftpSession) (msg : List UInt8) : TftpSession := { s with errorMsg := msg.take 32 }

def tftpClose (s : TftpSession) (n : Net) : Net :=
  if s.pendingAck then { n with sent := n.sent ++ [.error s.addr (s.errorMsg.take 31)] } else n

def resetTftpState (s : TftpSession) : TftpSession :=
  { s with block := 0, error := 0, bytesAvailable := 0, validData := 0, isXferEnd := false, pendingAck := false }

/-- What `tftp_listen` returns: nothing yet, `NULL`, or the file with the name asked for. -/
inductive Listen
  | waiting
  | null
  | file (filename : List UInt8)
  deriving DecidableEq, Repr

/-- The string `strncpy` copies out of a request, cut to `len - 1` characters. -/
def requestName (frame : ℕ → UInt8) (len : ℕ) : List UInt8 := ((Mem.read frame 2 len).takeWhile (· ≠ 0)).take (len - 1)

def tftpListen (s : TftpSession) (n : Net) (len : ℕ) : Listen × TftpSession × Net :=
  let s := resetTftpState s
  match n.events with
  | [] => (.waiting, s, n)
  | .timeout e :: evs => (.null, { s with error := tftpErrTimeout }, ⟨evs, e, n.sent⟩)
  | .selectError e :: evs => (.null, { s with error := tftpErr }, ⟨evs, e, n.sent⟩)
  | .recvError e :: evs => (.null, { s with error := tftpReadmodeErr }, ⟨evs, e, n.sent⟩)
  | .datagram src dg _ e :: evs =>
    let s := { s with addr := src, frame := recvFrame s.frame dg }
    if dg.length ≠ 0 ∧ frameWord s.frame 0 = opWrq then
      (.file (requestName s.frame len), { s with pendingAck := true, error := 0 }, ⟨evs, e, n.sent⟩)
    else (.null, { s with error := tftpReadmodeErr }, ⟨evs, e, n.sent⟩)

/-- The session left by `tftp_init`. -/
def tftpInit : TftpSession where
  addr := ⟨0, 0⟩
  block := 0
  error := 0
  frame := fun _ => 0
  bytesAvailable := 0
  validData := 0
  isXferEnd := false
  pendingAck := false
  errorMsg := []

end Bertos
