import Icl.Cxx.OrdMap
import Icl.Cxx.Stream
import Icl.Security.Base64Util
import Icl.Security.ShaOne
import Icl.Util.Util
import Mathlib.Data.List.DropRight

namespace Icl.Protocol

open Icl.Cxx Icl.Security Icl.Util

/-!
# `HttpProtocol`

The model of the parsers of `protocol/HttpProtocol.cpp`: the request line and headers, the
reply's first line and headers, the URL parameters, and the WebSocket upgrade request with its
answer; and `GenerateRequest`.

They run in `Except Fault`: `line.pop_back()` on an empty line and `substr` past the end of a
string are faults.  The line loops have fuel for one turn more than there are bytes, and each
turn takes at least one byte out of the stream.
-/

/-- A `std::map<std::string, std::string>`. -/
abbrev StringMap := List (Bytes × Bytes)

/-- `HttpRequest`. -/
structure HttpRequest where
  method : Bytes
  query : Bytes
  protocol : Bytes
  params : StringMap
  headers : StringMap
  body : Bytes
  deriving DecidableEq, Repr

/-- The constructor of `HttpRequest`. -/
def HttpRequest.new : HttpRequest :=
  { method := ascii "GET", query := ascii "/", protocol := ascii "HTTP/1.1"
    params := [], headers := [], body := [] }

/-- `HttpReply`. -/
structure HttpReply where
  protocol : Bytes
  code : Bytes
  result : Bytes
  params : StringMap
  headers : StringMap
  body : Bytes
  chunked : Bool
  contentLength : Nat
  deriving DecidableEq, Repr

/-- `cSupportedMethods`. -/
def cSupportedMethods : List Bytes := [ascii "GET", ascii "POST"]

/-- The line that separates the headers from the body, `"\r"`. -/
def separatorLine : Bytes := [0x0D]

/-! ### URL parameters -/

/-- The two nested `getline` on one term `key=val`: both have to succeed. -/
def keyValue (keyval : Bytes) : Option (Bytes × Bytes) :=
  let (_, key, iss) := getline 0x3D (.ofString keyval) []          -- '='
  let (ok, val, _) := getline newline iss []
  if ok then some (key, val) else none

/-- The loop over the terms of the query. -/
def paramLoop : Nat → IStringStream → StringMap → StringMap
  | 0, _, params => params
  | fuel + 1, iss, params =>
    match getline 0x26 iss [] with                                 -- '&'
    | (false, _, _) => params
    | (true, keyval, iss) =>
      -- A term without `=` is passed over.
      paramLoop fuel iss (match keyValue keyval with
        | some (key, val) => OrdMap.insertOrAssign key val params
        | none => params)

/-- `HttpProtocol::ParseUrlParameters`. -/
def parseUrlParameters (request : HttpRequest) : HttpRequest :=
  match getline 0x3F (.ofString request.query) [] with             -- '?'
  | (false, _, _) => request
  | (true, _, iss) =>
    { request with params := paramLoop (request.query.length + 1) iss request.params }

/-! ### Header lines -/

/-- The characters `trim` removes: `" \t\r\v\n"`. -/
def isTrimmed (c : UInt8) : Bool :=
  c == 0x20 || c == 0x09 || c == 0x0D || c == 0x0B || c == 0x0A

/-- `trim`. -/
def trim (s : Bytes) : Bytes := (s.dropWhile isTrimmed).rdropWhile isTrimmed

/-- One header line: its end is removed, then name and value are taken apart at the first
    colon.  A line without a colon gives nothing. -/
def headerLine (line : Bytes) : Except Fault (Option (Bytes × Bytes)) := do
  let line ← popBack line
  match find line [0x3A] 0 with                                    -- ':'
  | none => return none
  | some i => do
    let option ← substr line 0 i
    -- The count reaches beyond the end of the line, where `substr` stops.
    let value ← substr line (i + 1) line.length
    return some (option.map tolower, trim value)

/-- The header loop, shared by requests and replies: the headers, whether every line had a
    colon, and the stream after the separator or at its end. -/
def headerLoop : Nat → IStringStream → StringMap → Bool →
    Except Fault (StringMap × Bool × IStringStream)
  | 0, iss, headers, success => .ok (headers, success, iss)
  | fuel + 1, iss, headers, success =>
    match getline newline iss [] with
    | (false, _, iss) => .ok (headers, success, iss)
    | (true, line, iss) =>
      if line ≠ separatorLine then do
        match ← headerLine line with
        | some (option, value) =>
          -- `insert`: of two headers with one name the first one stays.
          headerLoop fuel iss (OrdMap.insertNew option value headers) success
        -- The loop goes on behind a line without a colon.
        | none => headerLoop fuel iss headers false
      else .ok (headers, success, iss)

/-! ### Requests -/

/-- The request line, cut at its spaces once its end is removed. -/
def requestLine (line : Bytes) : Except Fault (List Bytes) := do
  let line ← popBack line
  split line (ascii " ")

/-- The part of `ParseRequestHeader` after a valid request line. -/
def parseRequestFields (payload : Bytes) (iss : IStringStream) (request : HttpRequest) :
    Except Fault HttpRequest := do
  let request := parseUrlParameters request
  let (headers, _, iss) ← headerLoop (payload.length + 1) iss request.headers true
  let request := { request with headers }
  -- `tellg` is -1 at the end of the stream, so that there is no body.
  let bodyStart := (iss.tellg % 2 ^ 32).toNat
  if bodyStart < payload.length then do
    let body ← substr payload bodyStart payload.length
    return { request with body }
  else return request

/-- `HttpProtocol::ParseRequestHeader`: whether the request is valid, and the request. -/
def parseRequestHeader (payload : Bytes) (request : HttpRequest) :
    Except Fault (Bool × HttpRequest) :=
  match getline newline (.ofString payload) [] with
  | (false, _, _) => .ok (false, request)
  | (true, line, iss) => do
    match ← requestLine line with
    | [method, query, protocol] =>
      let request := { request with method, query, protocol }
      -- Line and method have been stored even if the method is refused.
      if method ∈ cSupportedMethods then
        let request ← parseRequestFields payload iss request
        return (true, request)
      else return (false, request)
    | _ => return (false, request)

/-- `HttpProtocol::GenerateRequest`. -/
def generateRequest (request : HttpRequest) : Bytes :=
  request.method ++ ascii " " ++ request.query ++ ascii " " ++ request.protocol ++ ascii "\r\n"
    ++ request.headers.flatMap (fun x => x.1 ++ ascii ": " ++ x.2 ++ ascii "\r\n")
    ++ ascii "\r\n"
    ++ request.body

/-! ### Replies -/

/-- `HttpProtocol::ParseReplyFirstLine`. -/
def parseReplyFirstLine (payload : Bytes) (reply : HttpReply) : Except Fault (Bool × HttpReply) :=
  let reply := { reply with contentLength := 0, chunked := false, headers := [], params := [] }
  match getline newline (.ofString payload) [] with
  | (false, _, _) => .ok (false, reply)
  | (true, line, _) => do
    match ← requestLine line with
    -- Further words of the reason are dropped.
    | protocol :: code :: result :: _ => return (true, { reply with protocol, code, result })
    | _ => return (false, reply)

/-- `HttpProtocol::ParseReplyHeaders`; `garbage` is the indeterminate value that `FromString`
    may return. -/
def parseReplyHeaders (garbage : Nat) (payload : Bytes) (reply : HttpReply) :
    Except Fault (Bool × HttpReply) := do
  let (headers, success, _) ←
    headerLoop (payload.length + 1) (.ofString payload) reply.headers true
  let reply := { reply with headers }
  match OrdMap.find? (ascii "content-length") headers with
  | none =>
    -- Chunks are only looked for where there is no length.
    if OrdMap.find? (ascii "transfer-encoding") headers = some (ascii "chunked") then
      return (success, { reply with chunked := true })
    else return (success, reply)
  | some value => return (success, { reply with contentLength := fromStringUint32 garbage value })

/-! ### The WebSocket upgrade -/

/-- `WebSocketRequest`. -/
structure WebSocketRequest where
  request : HttpRequest
  key : Bytes
  protocol : Bytes
  deriving DecidableEq, Repr

/-- The constructor of `WebSocketRequest`. -/
def WebSocketRequest.new : WebSocketRequest := { request := .new, key := [], protocol := [] }

/-- `HttpProtocol::GetRequestHeaderValue`: the value, if the header is there. -/
def getRequestHeaderValue (request : HttpRequest) (option : Bytes) : Option Bytes :=
  OrdMap.find? (option.map tolower) request.headers

/-- `HttpProtocol::ParseWebSocketRequest`. -/
def parseWebSocketRequest (payload : Bytes) (ws : WebSocketRequest) :
    Except Fault (Bool × WebSocketRequest) := do
  let (ok, request) ← parseRequestHeader payload ws.request
  let ws := { ws with request }
  if ok then
    match getRequestHeaderValue request (ascii "Sec-WebSocket-Key") with
    | none => return (false, ws)
    | some key =>
      -- The value is compared as it stands; the case of its letters counts.
      let upgrade := getRequestHeaderValue request (ascii "Upgrade")
      return (upgrade = some (ascii "websocket"), { ws with key })
  else return (false, ws)

/-- `HttpProtocol::GenerateWebSocketRequest`; `random` is the random string. -/
def generateWebSocketRequest (ws : WebSocketRequest) (random : Bytes) : Bytes :=
  let headers := OrdMap.insertOrAssign (ascii "Connection") (ascii "keep-alive, Upgrade")
    ws.request.headers
  let headers := OrdMap.insertOrAssign (ascii "Upgrade") (ascii "websocket") headers
  let headers := OrdMap.insertOrAssign (ascii "Sec-WebSocket-Key") (Base64.encode random) headers
  let headers := OrdMap.insertOrAssign (ascii "Sec-WebSocket-Version") (ascii "13") headers
  generateRequest { ws.request with headers }

namespace WebSocketRequest

/-- The constant that the handshake appends to the key. -/
def magic : Bytes := ascii "258EAFA5-E914-47DA-95CA-C5AB0DC85B11"

/-- `WebSocketRequest::Accept`. -/
def accept (ws : WebSocketRequest) : Except Fault Bytes := do
  let sha ← Sha1.reset.update (ws.key ++ magic)
  return Base64.encode (sha.final false).1

/-- The handshake example of RFC 6455. -/
example : accept { WebSocketRequest.new with key := ascii "dGhlIHNhbXBsZSBub25jZQ==" }
    = .ok (ascii "s3pPLMBiTxaQ9kYGzzhZRbK+xOo=") := by decide +kernel

/-- `WebSocketRequest::Upgrade`. -/
def upgrade (ws : WebSocketRequest) : Except Fault Bytes := do
  let accept ← ws.accept
  return ascii "HTTP/1.1 101 Switching Protocols\r\n"
    ++ ascii "Upgrade: websocket\r\n"
    ++ ascii "Connection: Upgrade\r\n"
    ++ ascii "Sec-WebSocket-Version: 13\r\n"
    ++ ascii "Sec-WebSocket-Accept: " ++ accept ++ ascii "\r\n"
    ++ (if ws.protocol.length ≠ 0 then
        ascii "Sec-WebSocket-Protocol: " ++ ws.protocol ++ ascii "\r\n" else [])
    ++ ascii "\r\n"

end WebSocketRequest

end Icl.Protocol
