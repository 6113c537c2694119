import Icl.Format.WsFrame

namespace Icl.Network

open Icl.Cxx

/-!
# `TcpSocket`

The model of `network/TcpSocket.cpp`: `Write`, `Recv`, `BuildWsFrame` and the two
`DecodeWsData`.  The calls to the operating system take their answers as arguments:
`SendAnswer` is what one `::send` does, `RecvAnswers` what `ioctl(FIONREAD)` and the
successive `::recv` of one `Recv` return.

`DecodeWsData` runs in `Except Fault`: each `buf[k]` is a checked access, so a run that
reads or writes outside `buf`, or calls `substr` past its end, ends in a fault.  Only the
`buf[0]` of an empty string is not one: it is the terminating zero.  Sizes are natural
numbers, cut to 32 bits where the source casts them.
-/

/-! ### Peers and connections -/

/-- `Peer`: a socket descriptor and how it is used. -/
structure Peer where
  socket : Int
  isWebSocket : Bool
  deriving DecidableEq, Repr

/-- `cSocketInvalid`. -/
def cSocketInvalid : Int := -1

/-- `Peer::IsValid`. -/
def Peer.isValid (p : Peer) : Bool := p.socket != cSocketInvalid

/-- `Conn::cStateClosed`, `cStateConnected` and `cStateDeleteLater`. -/
inductive ConnState where
  | closed | connected | deleteLater
  deriving DecidableEq, Repr

/-- `Conn`.  `serial` is not in the source: it numbers the accepted connections, so that
    one connection can be told from another that reuses its descriptor. -/
structure Conn where
  serial : Nat
  peer : Peer
  state : ConnState
  payload : Bytes
  deriving DecidableEq, Repr

namespace Conn

/-- The constructor `Conn(SocketType s, bool ws)`. -/
def new (serial : Nat) (s : Int) (ws : Bool) : Conn :=
  { serial, peer := ⟨s, ws⟩, state := .closed, payload := [] }

/-- `Conn::IsClosed`. -/
def isClosed (c : Conn) : Bool := c.state == .closed

/-- `Conn::IsConnected`. -/
def isConnected (c : Conn) : Bool :=
  if c.peer.isValid then
    if c.peer.isWebSocket then c.state != .closed else true
  else false

end Conn

/-! ### `Write` -/

/-- What one `::send` does: fail, with `retry` the result of `AnalyzeSocketError`, or
    accept `more + 1` bytes, but never more than it was offered. -/
inductive SendAnswer where
  | error (retry : Bool)
  | accepted (more : Nat)
  deriving DecidableEq, Repr

/-- The result of `Write`, its `written` argument and the bytes the socket has accepted. -/
structure Written where
  ret : Bool
  written : Nat
  sent : Bytes
  deriving DecidableEq, Repr

/-- The loop of `Write`; `buf` holds the bytes that remain, `answers i` is the `i`-th
    `::send`.  Every turn that goes on takes at least one byte off `buf`, so its length is
    fuel enough. -/
def writeLoop (answers : Nat → SendAnswer) : Nat → Nat → Bytes → Written → Written
  | 0, _, _, w => w
  | fuel + 1, i, buf, w =>
    if buf.length > 0 then
      match answers i with
      -- An error ends the loop, also one after which a retry would do.
      | .error retry => { w with ret := retry }
      | .accepted more =>
        let n := min (more + 1) buf.length
        writeLoop answers fuel (i + 1) (buf.drop n)
          { w with written := (w.written + n) % 2 ^ 32, sent := w.sent ++ buf.take n }
    else w

/-- `TcpSocket::Write`. -/
def write (input : Bytes) (answers : Nat → SendAnswer) : Written :=
  writeLoop answers input.length 0 input { ret := true, written := 0, sent := [] }

/-! ### `Recv` -/

/-- `MAXRECV`. -/
def maxRecv : Nat := 16 * 1024

/-- What one `::recv` returns: a failure, with `retry` the result of `AnalyzeSocketError`,
    the end of the stream, or bytes, of which at most as many as asked for are taken. -/
inductive RecvAnswer where
  | error (retry : Bool)
  | closed
  | data (b : UInt8) (bs : Bytes)
  deriving DecidableEq, Repr

/-- What the system answers one `Recv`: the count of `FIONREAD`, then each `::recv`.
    Past the end of the list the socket has nothing to give and fails with `EAGAIN`. -/
structure RecvAnswers where
  available : Nat
  results : List RecvAnswer
  deriving DecidableEq, Repr

/-- The loop of `Recv`. -/
def recvLoop : List RecvAnswer → Nat → Bytes → Bool × Bytes
  | [], _, output => (true, output)
  | .error retry :: _, _, output => (retry, output)
  -- `::recv` gives 0: the other side has closed.
  | .closed :: _, _, output => (false, output)
  | .data b bs :: rest, count, output =>
    let received := (b :: bs).take count
    let output := output ++ received
    let count := count - received.length
    if count > 0 then recvLoop rest count output else (true, output)

/-- `TcpSocket::Recv`: the result, and `output` with what was received. -/
def recv (output : Bytes) (max : Nat) (answers : RecvAnswers) : Bool × Bytes :=
  let count := answers.available
  if count > 0 then
    let count := if count > maxRecv then maxRecv else count
    -- `max` is 0 when the caller sets no limit.
    let count := if max > 0 then (if count > max then max else count) else count
    recvLoop answers.results count output
  else (false, output)

/-! ### `BuildWsFrame` -/

def websocketOpcodeContinuation : UInt8 := 0x00
def websocketOpcodeText : UInt8 := 0x01
def websocketOpcodeBinary : UInt8 := 0x02
def websocketOpcodeConnectionClose : UInt8 := 0x08
def websocketOpcodePing : UInt8 := 0x09
def websocketOpcodePong : UInt8 := 0x0A

/-- The byte of `n` at bit `shift`, `(n >> shift) & 0xFF`. -/
def byteOf (n shift : Nat) : UInt8 := UInt8.ofNat (n / 2 ^ shift)

/-- `TcpSocket::BuildWsFrame`. -/
def buildWsFrame (opcode : UInt8) (data : Bytes) : Bytes :=
  let dataLen := data.length % 2 ^ 32
  -- FIN is set, and there is no mask: the server sends unmasked frames.
  let first := 0x80 + (opcode &&& 0x0F)
  let wsHeader : Bytes :=
    if dataLen < 126 then
      [first, byteOf dataLen 0]
    else if dataLen ≤ 0xFFFF then
      [first, 126, byteOf dataLen 8, byteOf dataLen 0]
    else
      -- The size is a `std::uint32_t`: the four high bytes of the 64-bit form are zeros.
      [first, 127, 0, 0, 0, 0, byteOf dataLen 24, byteOf dataLen 16, byteOf dataLen 8,
        byteOf dataLen 0]
  wsHeader ++ data

/-! ### `DecodeWsData` -/

/-- `WS_RESULT`. -/
inductive WsResult where
  | wsSendPong | wsPartial | wsData | wsClose
  deriving DecidableEq, Repr

/-- What the length part of `DecodeWsData` computes. -/
structure WsLengths where
  maskLen : Nat
  headerLen : Nat
  dataLen : Nat
  deriving DecidableEq, Repr

/-- `*(uint32_t *) &buf[k]` on a little-endian machine. -/
def loadWord (buf : Bytes) (k : Nat) : Except Fault Nat := do
  let b0 ← index buf k
  let b1 ← index buf (k + 1)
  let b2 ← index buf (k + 2)
  let b3 ← index buf (k + 3)
  return b0.toNat + b1.toNat * 2 ^ 8 + b2.toNat * 2 ^ 16 + b3.toNat * 2 ^ 24

/-- `htonl` on a little-endian machine: the four bytes, the other way round. -/
def htonl (w : Nat) : Nat :=
  w % 2 ^ 8 * 2 ^ 24 + w / 2 ^ 8 % 2 ^ 8 * 2 ^ 16 + w / 2 ^ 16 % 2 ^ 8 * 2 ^ 8 + w / 2 ^ 24

/-- The length part of `DecodeWsData`: nothing is known (all three are 0) as long as too
    few bytes are there, except that the mask bit is looked at as soon as `buf[1]` is. -/
def decodeLengths (buf : Bytes) : Except Fault WsLengths := do
  let bufLen := buf.length % 2 ^ 32
  if bufLen ≥ 2 then
    let b1 ← index buf 1
    let len := (b1 &&& 127).toNat
    let maskLen := if b1 &&& 128 ≠ 0 then 4 else 0
    if len < 126 ∧ bufLen ≥ maskLen then
      return { maskLen, headerLen := 2 + maskLen, dataLen := len }
    -- A form of which too few bytes are there falls through to the next one.
    else if len = 126 ∧ bufLen ≥ 4 + maskLen then
      let byte1 ← index buf 2
      let byte2 ← index buf 3
      return { maskLen, headerLen := 4 + maskLen, dataLen := byte1.toNat * 2 ^ 8 + byte2.toNat }
    -- `len` is not looked at again here.
    else if bufLen ≥ 10 + maskLen then
      let hi ← loadWord buf 2
      let lo ← loadWord buf 6
      return { maskLen, headerLen := 10 + maskLen, dataLen := htonl hi * 2 ^ 32 + htonl lo }
    else
      return { maskLen, headerLen := 0, dataLen := 0 }
  else
    return { maskLen := 0, headerLen := 0, dataLen := 0 }

/-- The unmasking loop, from index `i` on with `n` turns to go:
    `buf[i + header_len] ^= mask_ptr[i % 4]`.  The sum is not cut to 64 bits: the first index
    past the end of `buf` comes before any wrap-around. -/
def unmask (maskPtr headerLen : Nat) : Nat → Nat → Bytes → Except Fault Bytes
  | 0, _, buf => .ok buf
  | n + 1, i, buf => do
    let m ← index buf (maskPtr + i % 4)
    let b ← index buf (i + headerLen)
    let buf ← store buf (i + headerLen) (b ^^^ m)
    unmask maskPtr headerLen n (i + 1) buf

/-- The unmasking part of `DecodeWsData`; the key stands right before the payload. -/
def unmaskFrame (l : WsLengths) (buf : Bytes) : Except Fault Bytes :=
  if l.maskLen > 0 then unmask (l.headerLen - l.maskLen) l.headerLen l.dataLen 0 buf else .ok buf

/-- `payload` after a frame that is neither a ping nor a close. -/
def newPayload (l : WsLengths) (opcode : UInt8) (buf payload : Bytes) : Except Fault Bytes :=
  if opcode = websocketOpcodeText ∨ opcode = websocketOpcodeBinary then
    substr buf l.headerLen l.dataLen
  else if opcode = websocketOpcodeContinuation then do
    let fragment ← substr buf l.headerLen l.dataLen
    return payload ++ fragment
  else .ok payload

/-- `buf[0]`: the first byte, or the terminating zero of an empty string. -/
def firstByte (buf : Bytes) : UInt8 := buf.getD 0 0

/-- The end of `DecodeWsData`, once `buf` is unmasked: the result by opcode and FIN bit, and
    `payload` afterwards.  Of an empty `buf` that is a partial fragment without a byte. -/
def takePayload (l : WsLengths) (buf payload : Bytes) : Except Fault (WsResult × Bytes) := do
  let b0 := firstByte buf
  let opcode := b0 &&& 0x0F
  let fin := b0 &&& 0x80 == 0x80
  if opcode = websocketOpcodePing then
    return (.wsSendPong, payload)
  else if opcode = websocketOpcodeConnectionClose then
    return (.wsClose, payload)
  else
    let payload ← newPayload l opcode buf payload
    return (if fin then .wsData else .wsPartial, payload)

/-- `DecodeWsData(std::string &buf, std::string &payload)`: the result and the two strings
    afterwards. -/
def decodeWsData (buf payload : Bytes) : Except Fault (WsResult × Bytes × Bytes) := do
  let l ← decodeLengths buf
  let buf ← unmaskFrame l buf
  let r ← takePayload l buf payload
  return (r.1, buf, r.2)

/-- `DecodeWsData(Conn &conn)` on the received `mBuff`: whether there is data to deliver,
    the connection, and what was written on its socket, if anything. -/
def decodeWsDataConn (mBuff : Bytes) (conn : Conn) (answers : Nat → SendAnswer) :
    Except Fault (Bool × Conn × Option Written) := do
  let (res, _, payload) ← decodeWsData mBuff conn.payload
  let conn := { conn with payload }
  match res with
  | .wsClose => return (false, { conn with state := .deleteLater }, none)
  -- The PONG carries no data, whatever the PING did.
  | .wsSendPong =>
    return (false, conn, some (write (buildWsFrame websocketOpcodePong []) answers))
  | .wsData => return (true, conn, none)
  | .wsPartial => return (false, conn, none)

end Icl.Network
