import Icl.Format.Http
import Icl.Protocol.HttpProtocol

namespace Icl.Protocol

open Icl.Cxx Icl.Format

/-!
# `HttpClient`

The model of `protocol/HttpClient.cpp`: `ParseChunkSize` and `Get`, with the members that `Get`
keeps from one call to the next.  What the network does stands in `Exchange`: the results of
`Connect` and of `Send`, and the bytes that the successive calls of `RecvWithTimeout` assign to
`output` before one of them fails.
-/

/-- `HttpClient`. -/
structure HttpClient where
  request : HttpRequest
  mReply : HttpReply
  mFirstPacket : Bool
  mGetFinished : Bool
  mRequestSuccess : Bool
  mCurrentChunk : Bytes
  mCurrentChunkSize : Int
  deriving DecidableEq, Repr

/-- A reply as it is constructed. -/
def HttpReply.new : HttpReply :=
  { protocol := [], code := [], result := [], params := [], headers := [], body := []
    chunked := false, contentLength := 0 }

/-- The constructor of `HttpClient`. -/
def HttpClient.new : HttpClient :=
  { request := .new, mReply := .new, mFirstPacket := false, mGetFinished := false
    mRequestSuccess := false, mCurrentChunk := [], mCurrentChunkSize := -1 }

/-- What the network answers to one `Get`. -/
structure Exchange where
  connect : Bytes → Nat → Bool
  send : Bytes → Bool
  segments : List Bytes

/-! ### Chunk sizes -/

/-- The digits, less a `0x` in front of them. -/
def skipHexPrefix : Bytes → Bytes
  | 0x30 :: 0x78 :: digits => digits                                -- "0x"
  | 0x30 :: 0x58 :: digits => digits                                -- "0X"
  | digits => digits

/-- `converter >> std::hex` into an `int32_t` that holds `current`: nothing is stored when there is
    nothing but spaces, 0 when no digit comes first, and the nearest value when it does not fit. -/
def extractHexInt32 (line : Bytes) (current : Int) : Int :=
  match line.dropWhile isspace with
  | [] => current
  | c :: cs =>
    let signed := c == 0x2B || c == 0x2D                            -- '+', '-'
    let digits := (skipHexPrefix (if signed then cs else c :: cs)).takeWhile isxdigit
    let value : Int := if c == 0x2D then -(hexValue digits : Int) else hexValue digits
    max (-2 ^ 31) (min value (2 ^ 31 - 1))

/-- `HttpClient::ParseChunkSize`. -/
def parseChunkSize (data : Bytes) (c : HttpClient) : Except Fault (Bool × HttpClient) :=
  match getline newline (.ofString data) [] with
  | (false, _, _) => return (false, c)
  | (true, line, iss) =>
    if line.getLast? = some 0x0D then do
      let line ← popBack line
      -- A blank line leaves the size as it is.
      let c := { c with mCurrentChunkSize := extractHexInt32 line c.mCurrentChunkSize }
      -- `tellg` is -1 at the end of the stream, which the cast makes the greatest position.
      let bodyStart := (iss.tellg % 2 ^ 32).toNat
      if bodyStart < data.length then do
        let mCurrentChunk ← substr data bodyStart data.length
        return (true, { c with mCurrentChunk })
      else return (true, c)
    else return (false, c)

/-! ### `Get` -/

/-- The first part of a turn of the chunk loop, which finds the size of the chunk: whether there is
    more data to look at. -/
def findChunkSize (c : HttpClient) : Except Fault (Bool × HttpClient) :=
  if c.mCurrentChunkSize = -1 then
    if c.mCurrentChunk.length > 3 then do
      let (ok, c) ← parseChunkSize c.mCurrentChunk c
      if ok then return (true, c)
      else return (false, { c with mGetFinished := true, mRequestSuccess := false })
    else return (false, c)
  else return (true, c)

/-- What is done once a chunk has been taken off: its CRLF is taken off too. -/
def endChunk (moreData : Bool) (c : HttpClient) : Bool × HttpClient :=
  match c.mCurrentChunk with
  | c0 :: c1 :: rest =>
    if c0 = 0x0D ∧ c1 = 0x0A then
      (moreData, { c with mCurrentChunk := rest, mCurrentChunkSize := -1 })
    else (false, { c with mGetFinished := true, mRequestSuccess := false })
  | _ => (false, c)

/-- The second part of a turn, which takes the chunk off. -/
def takeChunk (moreData : Bool) (c : HttpClient) (response : Bytes) : Bool × HttpClient × Bytes :=
  if c.mCurrentChunkSize = 0 then
    (false, { c with mGetFinished := true, mRequestSuccess := true }, response)
  -- The size is compared as a `std::uint32_t` and taken off as a `size_t`.
  else if c.mCurrentChunk.length ≥ (c.mCurrentChunkSize % 2 ^ 32).toNat then
    let size := (c.mCurrentChunkSize % 2 ^ 64).toNat
    let (moreData, c') :=
      endChunk moreData { c with mCurrentChunk := c.mCurrentChunk.drop size }
    (moreData, c', response ++ c.mCurrentChunk.take size)
  else (false, c, response)

/-- The loop over the chunks that have been received.  A turn that goes on takes a CRLF off, so the
    number of bytes is fuel enough. -/
def chunkLoop : Nat → HttpClient → Bytes → Except Fault (HttpClient × Bytes)
  | 0, c, response => return (c, response)
  | fuel + 1, c, response => do
    let (moreData, c) ← findChunkSize c
    let (moreData, c, response) := takeChunk moreData c response
    if moreData then chunkLoop fuel c response else return (c, response)

/-- What is done with the first packet: `output` and the client after it. -/
def firstPacket (garbage : Nat) (output : Bytes) (c : HttpClient) :
    Except Fault (Bytes × HttpClient) :=
  if c.mFirstPacket then return (output, c)
  else do
    let (_, mReply) ← parseReplyHeaders garbage output c.mReply
    -- Whether the header could be parsed is not looked at.
    let c := { c with mFirstPacket := true, mReply }
    -- The body is the one the reply has kept, which nothing fills.
    if mReply.body.length = mReply.contentLength then
      return (output, { c with mGetFinished := true, mRequestSuccess := true })
    else return (mReply.body, { c with mCurrentChunkSize := -1 })

/-- What is done with the data of one packet. -/
def takePacket (output : Bytes) (c : HttpClient) (response : Bytes) :
    Except Fault (HttpClient × Bytes) :=
  if c.mReply.chunked then
    let mCurrentChunk := c.mCurrentChunk ++ output
    chunkLoop (mCurrentChunk.length + 1) { c with mCurrentChunk } response
  -- Without chunks one packet ends the request, whatever the length says.
  else return ({ c with mGetFinished := true }, response ++ c.mReply.body)

/-- The loop over the packets. -/
def getLoop (garbage : Nat) :
    List Bytes → HttpClient → Bytes → Except Fault (HttpClient × Bytes)
  -- A receive that fails or times out ends the loop.
  | [], c, response => return ({ c with mGetFinished := true }, response)
  | segment :: segments, c, response => do
    let (output, c) ← firstPacket garbage segment c
    let (c, response) ← takePacket output c response
    if c.mGetFinished then return (c, response) else getLoop garbage segments c response

/-- The request that `Get` sends. -/
def getRequest (host path : Bytes) (request : HttpRequest) : HttpRequest :=
  { request with
    method := ascii "GET"
    protocol := ascii "HTTP/1.1"
    query := path
    headers := OrdMap.insertOrAssign (ascii "Content-type") (ascii "application/json")
      (OrdMap.insertOrAssign (ascii "Host") host request.headers) }

/-- `HttpClient::Get`: the result, `response` and the client after it.  `garbage` is the
    indeterminate value that `FromString` may return. -/
def get (garbage : Nat) (exchange : Exchange) (host path : Bytes) (port : Nat) (c : HttpClient)
    (response : Bytes) : Except Fault (Bool × Bytes × HttpClient) := do
  let c := { c with request := getRequest host path c.request }
  if exchange.connect host port && exchange.send (generateRequest c.request) then do
    let (c, response) ← getLoop garbage exchange.segments
      { c with mFirstPacket := false, mGetFinished := false, mCurrentChunkSize := -1 } response
    return (c.mRequestSuccess, response, c)
  -- The flag is that of the request before.
  else return (c.mRequestSuccess, response, c)

end Icl.Protocol
