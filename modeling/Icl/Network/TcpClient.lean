import Icl.Network.TcpSocket
import Icl.Protocol.HttpProtocol

namespace Icl.Network

open Icl.Cxx Icl.Protocol

/-!
# `TcpClient`

The model of `network/TcpClient.cpp` on a plain socket: `BuildWebSocketHandshake`, `Connect`, `Send`
and `RecvWithTimeout`, with `SimpleRecv` and `SimpleRecvWithTimeout` of `network/TcpSocket.cpp`.

What the operating system returns and the random string of the handshake stand in arguments; a
`recv` is only called when `poll` says that there is something, so that `none` stands for a `poll`
that has run out of time or failed.  `mIsSecured` is left out, with all that goes over TLS.
-/

/-! ### `SimpleRecv` -/

/-- The size of the buffer of `SimpleRecv`. -/
def simpleRecvMax : Nat := 1024

/-- `TcpSocket::SimpleRecv`: the result of `recv`, and `output` with what was received. -/
def simpleRecv (output : Bytes) : RecvAnswer → Int × Bytes
  | .error _ => (-1, output)
  | .closed => (0, output)
  | .data b bs =>
    let received := (b :: bs).take simpleRecvMax
    (received.length, output ++ received)

/-- `TcpSocket::SimpleRecvWithTimeout`. -/
def simpleRecvWithTimeout (output : Bytes) : Option RecvAnswer → Bool × Bytes
  | none => (false, output)
  | some answer =>
    let (size, output) := simpleRecv output answer
    -- The size is made a `bool`: a failure of `recv`, which is -1, is a success here.
    (size != 0, output)

/-! ### The client -/

/-- `TcpClient`. -/
structure TcpClient where
  mHost : Bytes
  mIsWebSocket : Bool
  mWsUri : Bytes
  mSocket : Int
  deriving DecidableEq, Repr

/-- What the system and the random generator give one `Connect`. -/
structure ConnectAnswers where
  connected : Bool
  random : Bytes
  send : Nat → SendAnswer
  reply : Option RecvAnswer

/-- What `RecvWithTimeout` returns and leaves behind, and what it has written, if anything. -/
structure Received where
  hasData : Bool
  output : Bytes
  client : TcpClient
  written : Option Written

namespace TcpClient

/-- `Close`; `valid` is what `IsValid` finds. -/
def close (client : TcpClient) (valid : Bool) : TcpClient :=
  if valid then { client with mSocket := cSocketInvalid } else client

/-- `BuildWebSocketHandshake`, on `mWsUri`. -/
def buildWebSocketHandshake (client : TcpClient) (random : Bytes) : Bytes :=
  generateWebSocketRequest
    { request := { HttpRequest.new with
        method := ascii "GET"
        protocol := ascii "HTTP/1.1"
        query := client.mWsUri
        body := []
        headers := OrdMap.insertOrAssign (ascii "Host") client.mHost [] }
      key := []
      protocol := ascii "tarotclub" }
    random

/-- A fresh `HttpReply`. -/
def newReply : HttpReply :=
  { protocol := [], code := [], result := [], params := [], headers := [], body := []
    chunked := false, contentLength := 0 }

/-- What `Connect` makes of the answer to its request. -/
def connectReply (garbage : Nat) (answer : Option RecvAnswer) : Except Fault Bool :=
  match simpleRecvWithTimeout [] answer with
  | (true, reply) => do
    let (ret, _) ← parseReplyHeaders garbage reply newReply
    return ret
  | (false, _) => .ok false

/-- `Connect`: the result, the client, and what was written, if anything; `valid` is what `IsValid`
    finds when the connection has failed. -/
def connect (garbage : Nat) (client : TcpClient) (host : Bytes) (valid : Bool)
    (answers : ConnectAnswers) : Except Fault (Bool × TcpClient × Option Written) :=
  let client := { client with mHost := host }
  if answers.connected then
    if client.mIsWebSocket then
      let req := client.buildWebSocketHandshake answers.random
      let w := write req answers.send
      -- The result of `Write` is not looked at, only how far it has come.
      if req.length ≠ w.written then .ok (false, client, some w)
      else do
        let ret ← connectReply garbage answers.reply
        return (ret, client, some w)
    else .ok (true, client, none)
  else .ok (false, client.close valid, none)

/-- `Send`: whether all was written, and what was. -/
def send (client : TcpClient) (input : Bytes) (answers : Nat → SendAnswer) : Bool × Written :=
  let data := if client.mIsWebSocket then buildWsFrame websocketOpcodeText input else input
  let w := write data answers
  (w.ret && data.length == w.written, w)

/-- `RecvWithTimeout`; `output` is what the caller's string holds. -/
def recvWithTimeout (client : TcpClient) (output : Bytes) (answer : Option RecvAnswer)
    (valid : Bool) (answers : Nat → SendAnswer) : Except Fault Received :=
  match simpleRecvWithTimeout [] answer with
  | (true, buffer) =>
    if client.mIsWebSocket then do
      -- A frame is taken to be whole: what follows it in the buffer is dropped.
      let (res, _, output) ← decodeWsData buffer output
      match res with
      | .wsData => return { hasData := true, output, client, written := none }
      | .wsSendPong =>
        let w := write (buildWsFrame websocketOpcodePong []) answers
        return { hasData := false, output, client, written := some w }
      | .wsClose =>
        return { hasData := false, output, client := client.close valid, written := none }
      -- `output` keeps the fragment for the next call.
      | .wsPartial => return { hasData := false, output, client, written := none }
    else .ok { hasData := true, output := buffer, client, written := none }
  | (false, _) => .ok { hasData := false, output, client, written := none }

end TcpClient

end Icl.Network
