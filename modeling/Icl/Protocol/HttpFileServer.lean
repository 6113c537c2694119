import Icl.Network.TcpSocket
import Icl.Protocol.HttpProtocol

namespace Icl.Protocol

open Icl.Cxx Icl.Network Icl.Util

/-!
# `HttpFileServer`

The model of `ReadData` of `protocol/HttpFileServer.cpp`, which waits for the rest of a POST request
whose body comes in several segments.

The loop over `mPartials` is a range-based `for`: it keeps the end that the vector has when the loop
begins, and `DeletePartialConn` is called inside it.  The iterators are taken for indices, so that
after the last element has been erased the loop is over, and after any other one it goes on to an
element that is not there any more.
-/

/-- `ChunkedData`. -/
structure ChunkedData where
  request : HttpRequest
  conn : Conn
  data : Bytes
  currentSize : Nat
  totalSize : Nat
  counter : Nat
  deriving DecidableEq, Repr

/-- `HttpFileServer`. -/
structure HttpFileServer where
  mLocalHostOnly : Bool
  mPartials : List ChunkedData
  deriving DecidableEq, Repr

/-- What `ReadData` does.  `dispatch` is the call of `GetFile`, and of `ReadDataPath` unless a file
    has been sent. -/
inductive FileServerEffect where
  | dispatch (conn : Conn) (request : HttpRequest)
  | send403 (conn : Conn)
  | wsReadData (conn : Conn)
  deriving DecidableEq, Repr

/-- `operator ==` of `Conn`. -/
def sameConn (conn : Conn) (el : ChunkedData) : Bool := el.conn.peer.socket == conn.peer.socket

/-- `HttpFileServer::DeletePartialConn`: the last one of the connection. -/
def deletePartialConn (conn : Conn) (mPartials : List ChunkedData) : List ChunkedData :=
  (mPartials.reverse.eraseP (sameConn conn)).reverse

/-- A request that has been parsed: `mPartials`, and whether it is to be processed at once. -/
def startRequest (garbage : Nat) (conn : Conn) (request : HttpRequest)
    (mPartials : List ChunkedData) : List ChunkedData × Bool :=
  if request.method = ascii "POST" then
    match OrdMap.find? (ascii "content-length") request.headers with
    | none => (mPartials, true)
    | some value =>
      let size := fromStringUint32 garbage value
      if size > request.body.length then
        let chunked : ChunkedData :=
          { request, conn, data := request.body, currentSize := request.body.length % 2 ^ 32
            totalSize := size, counter := 1 }
        (mPartials ++ [chunked], false)
      else (mPartials, true)
  else (mPartials, true)

/-- A partial request after one more segment. -/
def appendSegment (payload : Bytes) (el : ChunkedData) : ChunkedData :=
  { el with
    data := el.data ++ payload
    currentSize := (el.currentSize + payload.length) % 2 ^ 32
    counter := (el.counter + 1) % 2 ^ 32 }

/-- What the loop over `mPartials` changes. -/
structure PartialScan where
  mPartials : List ChunkedData
  process : Bool
  request : HttpRequest
  deriving DecidableEq, Repr

/-- The loop over `mPartials`, from index `i` on, for `n` more turns. -/
def partialLoop (conn : Conn) : Nat → Nat → PartialScan → Except Fault PartialScan
  | 0, _, scan => .ok scan
  | n + 1, i, scan =>
    match scan.mPartials[i]? with
    | none => .error (.outOfBounds i scan.mPartials.length)
    | some el =>
      if sameConn conn el then
        let el := appendSegment conn.payload el
        let mPartials := scan.mPartials.set i el
        if el.currentSize ≥ el.totalSize then
          partialLoop conn n (i + 1)
            { mPartials := deletePartialConn conn mPartials, process := true
              request := { el.request with body := el.data } }
        else partialLoop conn n (i + 1) { scan with mPartials }
      else partialLoop conn n (i + 1) scan

/-- External access is forbidden, and the request comes from outside. -/
def isForbidden (mLocalHostOnly : Bool) (request : HttpRequest) : Bool :=
  mLocalHostOnly && match OrdMap.find? (ascii "x-real-ip") request.headers with
    | none => false
    | some fromIP => fromIP != ascii "127.0.0.1"

/-- `HttpFileServer::ReadData`; `garbage` is the indeterminate value that `FromString` may
    return. -/
def readData (garbage : Nat) (server : HttpFileServer) (conn : Conn) :
    Except Fault (HttpFileServer × List FileServerEffect) :=
  if conn.payload.length = 0 then return (server, [])
  else if conn.peer.isWebSocket then return (server, [.wsReadData conn])
  else do
    let (valid, request) ← parseRequestHeader conn.payload .new
    let scan ←
      if valid then
        let (mPartials, process) := startRequest garbage conn request server.mPartials
        pure { mPartials, process, request }
      else
        partialLoop conn server.mPartials.length 0
          { mPartials := server.mPartials, process := false, request }
    return ({ server with mPartials := scan.mPartials },
      if isForbidden server.mLocalHostOnly scan.request then [.send403 conn]
      else if scan.process then [.dispatch conn scan.request]
      else [])

end Icl.Protocol
