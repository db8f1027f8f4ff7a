import Mathlib.Data.List.DropRight
import Alp.CString

/-!
# The X-modem receiver

This file embeds `drivers/xyzmodem.c` (kept there under `#if 0`): the frame reader
`xyzModem_get_hdr`, `xyzModem_stream_open`, and one pass of the outer loop of
`xyzModem_stream_read`.

The line is a list of what happens on it: a byte, a `gap` in which no byte is there
but none has timed out, or a `silence` as long as the character timeout.  Waiting for
a byte skips gaps; `xyzModem_flush` drops the bytes that are there, up to the next gap
or silence.  After the list the line is silent.

The field `frames` records the frames that passed all checks; no function reads it.
-/

set_option autoImplicit false

namespace Xyzmodem

open CString

/-- What happens on the line. -/
inductive Event
  | byte (b : UInt8)
  | gap
  | silence
  deriving DecidableEq

/-- `xyz_getc_timeout`: the byte, or `none` after a timeout. -/
def getcTimeout : List Event → Option UInt8 × List Event
  | [] => (none, [])
  | .byte b :: rest => (some b, rest)
  | .gap :: rest => getcTimeout rest
  | .silence :: rest => (none, rest)

/-- `xyz_flush`. -/
def flush : List Event → List Event
  | .byte _ :: rest => flush rest
  | line => line

def soh : UInt8 := 0x01
def stx : UInt8 := 0x02
def eot : UInt8 := 0x04
def ack : UInt8 := 0x06
def can : UInt8 := 0x18
/-- `EOF`, that is `^Z`. -/
def ctrlZ : UInt8 := 0x1A
/-- `'C'` -/
def letterC : UInt8 := 0x43

def xyzModemAccess : Int := -1
def xyzModemTimeout : Int := -3
def xyzModemEof : Int := -4
def xyzModemCancel : Int := -5
def xyzModemFrame : Int := -6
def xyzModemCksum : Int := -7
def xyzModemSequence : Int := -8

/-- `xyzModem_MAX_RETRIES`. -/
def xyzModemMaxRetries : Nat := 200

/-- `xyzModem_CAN_COUNT`. -/
def xyzModemCanCount : Nat := 3

/-- One round of `rda_crc16`. -/
def rdaCrc16Step (cksum : BitVec 16) (b : UInt8) : BitVec 16 :=
  let s : BitVec 8 := b.toBitVec ^^^ (cksum >>> 8).setWidth 8
  let t : BitVec 32 := (s ^^^ (s >>> 4)).setWidth 32
  let r : BitVec 32 := (cksum.setWidth 32 <<< 8) ^^^ t ^^^ (t <<< 5) ^^^ (t <<< 12)
  r.setWidth 16

/-- `rda_crc16`. -/
def rdaCrc16 (buf : List UInt8) : BitVec 16 :=
  buf.foldl rdaCrc16Step 0

/-- The payload length the header byte announces. -/
def payloadLen (c : UInt8) : Nat :=
  if c = soh then 128 else 1024

/-- `(crc1 << 8) | crc2`. -/
def crcWord (crc1 crc2 : UInt8) : BitVec 16 :=
  (crc1.toBitVec.setWidth 16 <<< 8) ||| crc2.toBitVec.setWidth 16

/-- A structurally valid frame. -/
structure Frame where
  header : UInt8
  blk : UInt8
  cblk : UInt8
  payload : List UInt8
  crc1 : UInt8
  crc2 : UInt8
  sized : payload.length = payloadLen header
  complement : blk ^^^ cblk = 0xFF
  checked : rdaCrc16 payload = crcWord crc1 crc2

/-- The state `xyz` with the line; `bufp` is an offset into `pkt`. -/
structure Xyz where
  pkt : Mem
  bufp : Nat
  blk : UInt8
  cblk : UInt8
  crc1 : UInt8
  crc2 : UInt8
  nextBlk : UInt8
  len : Int
  atEof : Bool
  txAck : Bool
  ttyInitialized : Bool
  line : List Event
  /-- The bytes sent. -/
  sent : List UInt8
  frames : List Frame

/-- `xyz_putc`. -/
def Xyz.putc (x : Xyz) (c : UInt8) : Xyz :=
  { x with sent := x.sent ++ [c] }

/-- `xyz_getc_timeout`. -/
def Xyz.getc (x : Xyz) : Option UInt8 × Xyz :=
  let res := getcTimeout x.line
  (res.1, { x with line := res.2 })

/-- How the search for a header ends. -/
inductive Search
  | found (c : UInt8)
  | cancel
  | eof
  | timeout
  deriving DecidableEq

/-- The first loop of `xyzModem_get_hdr`, with `can_total` and `hdr_chars`. -/
def findHdr : Nat → Nat → List Event → Search × List Event
  | _, _, [] => (.timeout, [])
  | canTotal, hdrChars, .gap :: rest => findHdr canTotal hdrChars rest
  | _, _, .silence :: rest => (.timeout, flush rest)
  | canTotal, hdrChars, .byte c :: rest =>
    if c = soh ∨ c = stx then (.found c, rest)
    else if c = can then
      if canTotal + 1 = xyzModemCanCount then (.cancel, rest)
      else findHdr (canTotal + 1) (hdrChars + 1) rest
    else if c = eot ∧ hdrChars + 1 = 1 then (.eof, rest)
    else findHdr canTotal (hdrChars + 1) rest

/-- The loop that reads the payload into `pkt`, from index `i` on; whether it got
everything. -/
def readPkt : Nat → Nat → Xyz → Bool × Xyz
  | _, 0, x => (true, x)
  | i, left + 1, x =>
    match x.getc with
    | (some c, x) => readPkt (i + 1) left { x with pkt := x.pkt.set i c }
    | (none, x) => (false, x)

/-- The first `n` bytes of `pkt`. -/
def Xyz.packet (x : Xyz) (n : Nat) : List UInt8 :=
  (List.range n).map x.pkt

theorem Xyz.length_packet (x : Xyz) (n : Nat) : (x.packet n).length = n := by
  simp [Xyz.packet]

/-- The checks at the end of `xyzModem_get_hdr`. -/
def checkFrame (c : UInt8) (x : Xyz) : Int × Xyz :=
  if hcompl : x.blk ^^^ x.cblk = 0xFF then
    if hcrc : rdaCrc16 (x.packet (payloadLen c)) = crcWord x.crc1 x.crc2 then
      (0, { x with
        frames := x.frames ++ [⟨c, x.blk, x.cblk, x.packet (payloadLen c), x.crc1, x.crc2,
          x.length_packet _, hcompl, hcrc⟩] })
    else (xyzModemCksum, x)
  else (xyzModemFrame, { x with line := flush x.line })

/-- `xyzModem_get_hdr` after the header byte `c`. -/
def readFrame (c : UInt8) (x : Xyz) : Int × Xyz :=
  match x.getc with
  | (none, x) => (xyzModemTimeout, x)
  | (some blk, x) =>
    match Xyz.getc { x with blk := blk } with
    | (none, x) => (xyzModemTimeout, x)
    | (some cblk, x) =>
      match readPkt 0 (payloadLen c) { x with cblk := cblk, len := payloadLen c, bufp := 0 } with
      | (false, x) => (xyzModemTimeout, x)
      | (true, x) =>
        match x.getc with
        | (none, x) => (xyzModemTimeout, x)
        | (some crc1, x) =>
          match Xyz.getc { x with crc1 := crc1 } with
          | (none, x) => (xyzModemTimeout, x)
          | (some crc2, x) => checkFrame c { x with crc2 := crc2 }

/-- The deferred ACK at the start of `xyzModem_get_hdr`. -/
def Xyz.sendAck (x : Xyz) : Xyz :=
  if x.txAck then { x.putc ack with txAck := false } else x

/-- `xyzModem_get_hdr`. -/
def xyzModemGetHdr (x : Xyz) : Int × Xyz :=
  let x := x.sendAck
  match findHdr 0 0 x.line with
  | (.found c, rest) => readFrame c { x with line := rest }
  | (.cancel, rest) => (xyzModemCancel, { x with line := rest })
  | (.eof, rest) => (xyzModemEof, { x.putc ack with line := rest })
  | (.timeout, rest) => (xyzModemTimeout, { x with line := rest })

/-- `xyzModem_stream_open`: 0, or -1 with the error. -/
def xyzModemStreamOpen (x : Xyz) : Int × Option Int × Xyz :=
  if x.ttyInitialized = false then (-1, some xyzModemAccess, x)
  else
    (0, none, { x.putc letterC with
      len := 0, atEof := false, txAck := false, nextBlk := 1 })

/-- The loop that drops trailing `^Z`: the length left. -/
def trimLoop (pkt : Mem) : Nat → Nat
  | 0 => 0
  | n + 1 => if pkt n = ctrlZ then trimLoop pkt n else n + 1

/-- The length of a packet without its padding: three `^Z` at its end, and then all
of them. -/
def trimLen (pkt : Mem) (n : Nat) : Nat :=
  if pkt (n - 1) = ctrlZ ∧ pkt (n - 2) = ctrlZ ∧ pkt (n - 3) = ctrlZ then trimLoop pkt n else n

/-- Taking the block that was expected. -/
def Xyz.takeBlock (x : Xyz) : Xyz :=
  { x with
    txAck := true, nextBlk := x.nextBlk + 1,
    len := trimLen (fun i => x.pkt (x.bufp + i)) x.len.toNat }

/-- The retry loop of `xyzModem_stream_read` with `n` retries left: `stat` when it
ends. -/
def retryLoop : Nat → Int → Xyz → Int × Xyz
  | 0, stat, x => (stat, x)
  | n + 1, _, x =>
    let (stat, x) := xyzModemGetHdr x
    if stat = 0 then
      if x.blk = x.nextBlk then (0, x.takeBlock)
      else if x.blk = x.nextBlk - 1 then retryLoop n 0 (x.putc ack)
      else retryLoop n xyzModemSequence (x.putc letterC)
    else if stat = xyzModemCancel then (stat, x)
    else if stat = xyzModemEof then (stat, { x.putc ack with atEof := true })
    else retryLoop n stat (x.putc letterC)

/-- The unread bytes of the packet. -/
def Xyz.pending (x : Xyz) : List UInt8 :=
  (List.range x.len.toNat).map fun i => x.pkt (x.bufp + i)

/-- What a pass of the outer loop of `xyzModem_stream_read` does. -/
inductive Pass
  /-- It leaves the function with an error. -/
  | error (err : Int) (x : Xyz)
  /-- It copies bytes into the caller's buffer. -/
  | copied (bytes : List UInt8) (x : Xyz)

/-- The `memcpy` of the outer loop; `none` for a negative length. -/
def copyOut (size : Int) (x : Xyz) : Option Pass :=
  if x.atEof then some (.copied [] x)
  else if x.len < 0 then none
  else
    let n := if size < x.len then size else x.len
    some (.copied (x.pending.take n.toNat) { x with len := x.len - n, bufp := x.bufp + n.toNat })

/-- One pass of the outer loop of `xyzModem_stream_read`, with `size` bytes to go. -/
def readPass (size : Int) (x : Xyz) : Option Pass :=
  if x.len = 0 then
    let (stat, x) := retryLoop xyzModemMaxRetries xyzModemCancel x
    if stat < 0 then some (.error stat { x with len := -1 }) else copyOut size x
  else copyOut size x

end Xyzmodem
