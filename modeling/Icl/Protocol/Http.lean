import Icl.Cxx.OrdMap
import Icl.Protocol.HttpClient
import Icl.Transition.Loop

namespace Icl.Http

open Icl.Cxx Icl.Transition

/-!
# `http::Response`

The model of the class `Response` of `protocol/Http.cpp`, which gets the reply of a server in pieces
of any size and hands its body out to `IEvent`.

Counters of type `int` are integers, cut to 32 bits where the source may leave them.  A handler that
gets a negative number of bytes reads out of bounds, and so does `pump` without any data, which an
assertion forbids.  What is written to `std::cout` is left out.
-/

/-! ### Numbers -/

/-- The conversion to `int`. -/
def toInt (z : Int) : Int := z.bmod (2 ^ 32)

/-- `c_str()`, up to its NUL. -/
def cStr (s : Bytes) : Bytes := s.takeWhile (· ≠ 0)

/-- The digits at the front of a text, as a number. -/
def leadingNumber (hex : Bool) (s : Bytes) : Nat :=
  if hex then Format.hexValue ((Protocol.skipHexPrefix s).takeWhile isxdigit)
  else Util.digitsValue (s.takeWhile isdigit)

/-- `strtol`, in base 16 or 10: spaces and a sign come first, and the nearest value is taken when it
    does not fit. -/
def strtol (hex : Bool) (s : Bytes) : Int :=
  match s.dropWhile isspace with
  | 0x2D :: digits => max (-(leadingNumber hex digits : Int)) (-(2 ^ 63))   -- '-'
  | 0x2B :: digits => min (leadingNumber hex digits : Int) (2 ^ 63 - 1)     -- '+'
  | digits => min (leadingNumber hex digits : Int) (2 ^ 63 - 1)

/-- `atoi`. -/
def atoi (s : Bytes) : Int := toInt (strtol false s)

/-! ### The class -/

/-- The states of a response. -/
inductive State where
  | statusLine | headers | body | chunkLen | chunkEnd | trailers | complete
  deriving DecidableEq, Repr

/-- `IEvent`. -/
inductive Event where
  | responseBegin
  | responseData (data : Bytes)
  | responseComplete
  deriving DecidableEq, Repr

/-- `Response`. -/
structure Response where
  mState : State
  m_Method : Bytes
  m_VersionString : Bytes
  m_Version : Int
  m_Status : Int
  m_Reason : Bytes
  m_Headers : List (Bytes × Bytes)
  m_BytesRead : Int
  m_Chunked : Bool
  m_ChunkLeft : Int
  m_Length : Int
  m_WillClose : Bool
  m_LineBuf : Bytes
  m_HeaderAccum : Bytes
  deriving DecidableEq, Repr

/-- `CONTINUE`, `NO_CONTENT` and `NOT_MODIFIED`. -/
def statusContinue : Int := 100
def statusNoContent : Int := 204
def statusNotModified : Int := 304

namespace Response

/-- The constructor. -/
def new (method : Bytes) : Response :=
  { mState := .statusLine, m_Method := method, m_VersionString := [], m_Version := 0, m_Status := 0
    m_Reason := [], m_Headers := [], m_BytesRead := 0, m_Chunked := false, m_ChunkLeft := 0
    m_Length := -1, m_WillClose := false, m_LineBuf := [], m_HeaderAccum := [] }

/-- `completed`. -/
def completed (r : Response) : Bool := r.mState == .complete

/-- `getheader`. -/
def getheader (r : Response) (name : Bytes) : Option Bytes :=
  OrdMap.find? (name.map tolower) r.m_Headers

/-- `Finish`. -/
def finish (r : Response) : Response × List Event :=
  ({ r with mState := .complete }, [.responseComplete])

/-! ### Lines -/

/-- `CheckClose`. -/
def checkClose (r : Response) : Bool :=
  if r.m_Version = 11 then r.getheader (ascii "connection") == some (ascii "close")
  else (r.getheader (ascii "keep-alive")).isNone

/-- `m_Length` as `BeginBody` sets it. -/
def beginLength (r : Response) (m_Chunked : Bool) : Int :=
  let length :=
    match r.getheader (ascii "content-length") with
    | some contentlen => if m_Chunked then -1 else atoi contentlen
    | none => -1
  -- These responses have no body, whatever their headers say.
  if r.m_Status = statusNoContent ∨ r.m_Status = statusNotModified
      ∨ (100 ≤ r.m_Status ∧ r.m_Status < 200) ∨ r.m_Method = ascii "HEAD" then 0
  else length

/-- `BeginBody`. -/
def beginBody (r : Response) : Response × List Event :=
  let m_Chunked := r.getheader (ascii "transfer-encoding") == some (ascii "chunked")
  let m_Length := r.beginLength m_Chunked
  ({ r with
      m_Chunked
      m_ChunkLeft := if m_Chunked then -1 else r.m_ChunkLeft
      m_Length
      m_WillClose := r.checkClose || (!m_Chunked && m_Length == -1)
      -- A body of length 0 is not finished here: it waits for a byte.
      mState := if m_Chunked then .chunkLen else .body },
    [.responseBegin])

/-- `ProcessStatusLine`. -/
def processStatusLine (line : Bytes) (r : Response) : Response :=
  let space : UInt8 := 0x20
  let p := (cStr line).dropWhile (· == space)
  let m_VersionString := r.m_VersionString ++ p.takeWhile (· != space)
  let p := (p.dropWhile (· != space)).dropWhile (· == space)
  let status := p.takeWhile (· != space)
  let p := (p.dropWhile (· != space)).dropWhile (· == space)
  { r with
    m_VersionString
    m_Reason := r.m_Reason ++ p
    m_Status := atoi status
    m_Version :=
      -- The colon is the source's.
      if m_VersionString = ascii "HTTP:/1.0" then 10
      else if m_VersionString.take 7 = ascii "HTTP/1." then 11
      else r.m_Version
    mState := .headers
    m_HeaderAccum := [] }

/-- `FlushHeader`. -/
def flushHeader (r : Response) : Response :=
  if r.m_HeaderAccum = [] then r
  else
    let p := cStr r.m_HeaderAccum
    let colon : UInt8 := 0x3A
    let header := (p.takeWhile (· != colon)).map tolower
    let value := ((p.dropWhile (· != colon)).drop 1).dropWhile fun c => c == 0x20 || c == 0x09
    { r with m_Headers := OrdMap.insertOrAssign header value r.m_Headers, m_HeaderAccum := [] }

/-- `ProcessHeaderLine`. -/
def processHeaderLine (line : Bytes) (r : Response) : Response × List Event :=
  if line = [] then
    let r := r.flushHeader
    -- The final response follows an interim one.
    if r.m_Status = statusContinue then ({ r with mState := .statusLine }, []) else r.beginBody
  else
    let p := cStr line
    -- A line that begins with a blank goes on with the header before it.
    if p.head?.any isspace then
      ({ r with m_HeaderAccum := r.m_HeaderAccum ++ 0x20 :: (p.drop 1).dropWhile isspace }, [])
    else ({ r.flushHeader with m_HeaderAccum := p }, [])

/-- `ProcessTrailerLine`. -/
def processTrailerLine (line : Bytes) (r : Response) : Response × List Event :=
  if line = [] then r.finish else (r, [])

/-- `ProcessChunkLenLine`. -/
def processChunkLenLine (line : Bytes) (r : Response) : Response :=
  -- `strtol` gives a `long`, which is assigned to an `int`.
  let m_ChunkLeft := toInt (strtol true (cStr line))
  if m_ChunkLeft = 0 then { r with m_ChunkLeft, mState := .trailers, m_HeaderAccum := [] }
  else { r with m_ChunkLeft, mState := .body }

/-- The states in which `pump` accumulates a line. -/
def readsLine (r : Response) : Bool :=
  match r.mState with
  | .statusLine | .headers | .trailers | .chunkLen | .chunkEnd => true
  | .body | .complete => false

/-- A whole line. -/
def processLine (r : Response) : Response × List Event :=
  match r.mState with
  | .statusLine => (r.processStatusLine r.m_LineBuf, [])
  | .headers => r.processHeaderLine r.m_LineBuf
  | .trailers => r.processTrailerLine r.m_LineBuf
  | .chunkLen => (r.processChunkLenLine r.m_LineBuf, [])
  | .chunkEnd => ({ r with mState := .chunkLen }, [])
  | .body | .complete => (r, [])

/-- A line has ended. -/
def endLine (r : Response) : Response × List Event :=
  let (r, events) := r.processLine
  ({ r with m_LineBuf := [] }, events)

/-- Another character of the line; CR is ignored. -/
def addChar (c : UInt8) (r : Response) : Response :=
  if c ≠ 0x0D then { r with m_LineBuf := r.m_LineBuf ++ [c] } else r

/-- The inner loop of `pump`, up to the end of the line: what is left of the data comes last. -/
def accumulate : Bytes → Response → Response × List Event × Bytes
  | [], r => (r, [], [])
  | c :: data, r =>
    if c = newline then
      let (r, events) := r.endLine
      (r, events, data)
    else accumulate data (r.addChar c)

/-! ### The body -/

/-- `ProcessDataChunked`: the number of bytes used comes last. -/
def processDataChunked (data : Bytes) (r : Response) : Except Fault (Response × List Event × Nat) :=
  let n : Int := min data.length r.m_ChunkLeft
  -- The handler would copy a negative number of bytes.
  if n < 0 then .error (.outOfBounds 0 0)
  else
    let m_ChunkLeft := r.m_ChunkLeft - n
    .ok ({ r with
        m_BytesRead := toInt (r.m_BytesRead + n)
        m_ChunkLeft
        mState := if m_ChunkLeft = 0 then .chunkEnd else r.mState },
      [.responseData (data.take n.toNat)], n.toNat)

/-- `ProcessDataNonChunked`. -/
def processDataNonChunked (data : Bytes) (r : Response) :
    Except Fault (Response × List Event × Nat) :=
  let n : Int :=
    if r.m_Length ≠ -1 then min data.length (r.m_Length - r.m_BytesRead) else data.length
  if n < 0 then .error (.outOfBounds 0 0)
  else
    let events := [.responseData (data.take n.toNat)]
    let r := { r with m_BytesRead := toInt (r.m_BytesRead + n) }
    if r.m_Length ≠ -1 ∧ r.m_BytesRead = r.m_Length then
      let (r, complete) := r.finish
      .ok (r, events ++ complete, n.toNat)
    else .ok (r, events, n.toNat)

/-- Some data of the body. -/
def processData (data : Bytes) (r : Response) : Except Fault (Response × List Event × Nat) :=
  if r.m_Chunked then r.processDataChunked data else r.processDataNonChunked data

/-! ### `pump` -/

/-- A turn of the outer loop, on the response, what the handler has got, and the data left. -/
def pumpTurn : Response × List Event × Bytes →
    Except Fault (Turn (Response × List Event × Bytes) (Response × List Event × Bytes))
  | (r, events, data) =>
    if data = [] ∨ r.completed then .ok (.stop (r, events, data))
    else if r.readsLine then
      let (r, more, data) := r.accumulate data
      .ok (.next (r, events ++ more, data))
    else do
      let (r, more, bytesused) ← r.processData data
      return .next (r, events ++ more, data.drop bytesused)

/-- `pump`: the number of bytes used comes last.  Each turn uses a byte or completes the response,
    and the last one stops. -/
def pump (data : Bytes) (r : Response) : Except Fault (Response × List Event × Nat) := do
  -- The source asserts that there is data.
  if data = [] then .error (.outOfBounds 0 0)
  else
    let (r, events, rest) ← loop pumpTurn (data.length + 2) (r, [], data)
    return (r, events, data.length - rest.length)

end Response

end Icl.Http
