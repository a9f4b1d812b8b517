import Bertos.Boot.Crc32
import Bertos.Drv.FlashStm32
import Bertos.Io.KFileBlock
import Bertos.Lib.Bytes
import Bertos.Net.Tftp
import Mathlib.Logic.Function.Iterate

/-!
# The bootloader (`boot/main.c`)

The bootloader receives a firmware by TFTP into the flash partition that starts at `FLASH_BOOT_SIZE`, checks the CRC of
what is there and starts it. `receiveFirmware` returns `none` while it waits for a datagram, `crcCheckOk` when it never
returns: a firmware that claims to be longer than the partition makes its loop read nothing for ever.
-/

namespace Bertos

def flashBootSize : ℕ := 128 * 1024
def trimStart : ℕ := flashBootSize / flashPageSize
def maxFirmwareSize : ℕ := fSize * 1024 - flashBootSize
def minFirmwareSize : ℕ := 8192

/-- An entry of `boot_cfg`. -/
structure BootCfg where
  filename : List UInt8
  tag : List UInt8

def kk348Cfg : BootCfg :=
  ⟨ascii ['k', 'k', '3', '4', '8', '.', 'c', 'z', 'f'], ascii ['k', 'k', '3', '4', '8']⟩

def defBootTag : List UInt8 := ascii ['k', 'k', '0', '0', '0', '0']
def defBootFile : List UInt8 := defBootTag ++ ascii ['.', 'c', 'z', 'f']

/-- The state of the bootloader: the TFTP server and its socket, the flash file and the flash. -/
structure Boot where
  server : TftpSession
  net : Net
  flash : KFileBlock
  dev : FlashDev

/-- `flash_init`, `kblock_trim` and `kfileblock_init` as `init` calls them. -/
def flashOpen (d : FlashDev) : KFileBlock × FlashDev :=
  let blk := flashHwInit d
  match kblockTrim flashStm32Vt blk d trimStart (blk.blkCnt - trimStart) with
  | (_, blk', d') => (kfileblockInit blk', d')

/-- The state when `main` starts to listen, for the flash content `mem`. -/
def bootInit (mem : ℕ → UInt8) (net : Net) : Boot :=
  match flashOpen ⟨mem, []⟩ with
  | (fb, d) => ⟨tftpInit, net, fb, d⟩

section Receive

variable (cfg : BootCfg) (ram : TftpSession → ℕ → UInt8)

/-- `strstr(haystack, needle)` is not `NULL`. -/
def strstr (haystack needle : List UInt8) : Bool := haystack.tails.any (needle.isPrefixOf ·)

/-- The three names `receiveFirmware` looks for in a request. -/
def nameAccepted (filename : List UInt8) : Bool :=
  strstr filename defBootFile || strstr filename cfg.filename || strstr filename kk348Cfg.filename

/-- `sizeof(recv_buf)`. -/
def recvBufSize : ℕ := 300

/-- The copy loop of `receiveFirmware`. Every turn but the last writes a full buffer, so the size of the flash file
is `fuel` enough. -/
def receiveLoop : ℕ → Boot → Option Bool × Boot
  | 0, st => (none, st)
  | fuel + 1, st =>
    match tftpRead ram st.server st.net recvBufSize with
    | (none, s, n) => (none, { st with server := s, net := n })
    | (some bs, s, n) =>
      if tftpError s ≠ 0 then (some false, { st with server := s, net := n })
      else
        match kfileblockWrite flashStm32Vt st.flash st.dev bs with
        | (bytes, fb, d) =>
          if bytes ≠ bs.length then
            let s' := tftpSetErrorMsg s (ascii "Error writing to flash".toList)
            (some false, ⟨s', tftpClose s' n, fb, d⟩)
          else if bs.length = recvBufSize then receiveLoop fuel ⟨s, n, fb, d⟩
          else
            match kfileblockFlush flashStm32Vt fb d with
            | (_, fb', d') => (some true, ⟨s, n, fb', d'⟩)

def receiveFirmware (st : Boot) : Option Bool × Boot :=
  match tftpListen st.server st.net 100 with
  | (.waiting, s, n) => (none, { st with server := s, net := n })
  | (.null, s, n) => (some false, ⟨s, n, st.flash.seekSet 0, st.dev⟩)
  | (.file filename, s, n) =>
    let fb := st.flash.seekSet 0
    if nameAccepted cfg filename then receiveLoop ram (fb.size + 1) ⟨s, n, fb, st.dev⟩
    else
      let s' := tftpSetErrorMsg s (ascii "Filename invalid".toList)
      (some false, ⟨s', tftpClose s' n, fb, st.dev⟩)

end Receive

section Check

variable (cfg : BootCfg)

/-- The tags a firmware may be signed with: `boot_cfg[KK348_ID].tag`, `cfg->tag` and `DEF_BOOT_TAG`. -/
def acceptedTags : List (List UInt8) := [kk348Cfg.tag, cfg.tag, defBootTag]

/-- The loop of `crcCheckOk` over `size` bytes, which keeps one CRC for each accepted tag. A turn that reads nothing
changes nothing, so the loop does not end: `none`. -/
def crcLoop : (fuel size : ℕ) → List UInt32 → KFileBlock → FlashDev → Option (List UInt32) × KFileBlock × FlashDev
  | 0, _, crcs, fb, d => (some crcs, fb, d)
  | fuel + 1, size, crcs, fb, d =>
    if size = 0 then (some crcs, fb, d)
    else
      match kfileblockRead flashStm32Vt fb d (min size tftpPacketSize) with
      | (bs, fb', d') =>
        if bs.length = 0 then (none, fb', d')
        else crcLoop fuel (size - bs.length) (crcs.map (crc32 bs ·)) fb' d'

/-- One turn of this loop: the bytes to go, the CRCs, the file and the flash. -/
def crcTurn : ℕ × List UInt32 × KFileBlock × FlashDev → ℕ × List UInt32 × KFileBlock × FlashDev
  | (size, crcs, fb, d) =>
    match kfileblockRead flashStm32Vt fb d (min size tftpPacketSize) with
    | (bs, fb', d') => (size - bs.length, crcs.map (crc32 bs ·), fb', d')

def crcCheckOk (st : Boot) : Option Bool × Boot :=
  match kfileblockRead flashStm32Vt (st.flash.seekSet 0) st.dev 4 with
  | (sizeBytes, fb, d) =>
    match kfileblockRead flashStm32Vt fb d 4 with
    | (crcBytes, fb', d') =>
      let size := leNat sizeBytes
      let crcCheck := UInt32.ofNat (leNat crcBytes)
      if size > maxFirmwareSize ∨ size < minFirmwareSize then (some false, { st with flash := fb', dev := d' })
      else
        match crcLoop size size ((acceptedTags cfg).map (crc32 · 0)) fb' d' with
        | (none, fb'', d'') => (none, { st with flash := fb'', dev := d'' })
        | (some crcs, fb'', d'') => (some (decide (crcCheck ∈ crcs)), { st with flash := fb'', dev := d'' })

/-- `crcCheckOk` returns: it refuses the stored size, or its loop has no byte to go after some number of turns. -/
def CrcCheckEnds (st : Boot) : Prop :=
  match kfileblockRead flashStm32Vt (st.flash.seekSet 0) st.dev 4 with
  | (sizeBytes, fb, d) =>
    match kfileblockRead flashStm32Vt fb d 4 with
    | (_, fb', d') =>
      leNat sizeBytes > maxFirmwareSize ∨ leNat sizeBytes < minFirmwareSize ∨
        ∃ n, (crcTurn^[n] (leNat sizeBytes, (acceptedTags cfg).map (crc32 · 0), fb', d')).1 = 0

end Check

/-- How `main` stands: it waits for the network, it is caught in the firmware check, or it is at `START_APP`. -/
inductive BootEnd
  | waiting (st : Boot)
  | stuck (st : Boot)
  | startApp (st : Boot)

section Main

variable (cfg : BootCfg) (ram : TftpSession → ℕ → UInt8)

/-- The loops of `main` after a failed check. -/
def mainLoop : ℕ → Boot → BootEnd
  | 0, st => .waiting st
  | fuel + 1, st =>
    match receiveFirmware cfg ram st with
    | (none, st') => .waiting st'
    | (some false, st') => mainLoop fuel st'
    | (some true, st') =>
      match crcCheckOk cfg st' with
      | (none, st'') => .stuck st''
      | (some true, st'') => .startApp st''
      | (some false, st'') => mainLoop fuel st''

/-- `main` once the network is up. Every call of `receiveFirmware` that returns takes an event. -/
def main (st : Boot) : BootEnd :=
  match receiveFirmware cfg ram st with
  | (none, st') => .waiting st'
  | (some _, st') =>
    match crcCheckOk cfg st' with
    | (none, st'') => .stuck st''
    | (some true, st'') => .startApp st''
    | (some false, st'') => mainLoop cfg ram (st''.net.events.length + 1) st''

end Main

end Bertos
