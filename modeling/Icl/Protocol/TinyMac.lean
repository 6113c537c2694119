import Icl.Cxx.Buffer
import Icl.Security.Gcm

namespace Icl.Protocol

open Icl.Cxx Icl.Security

/-!
# `TinyMac`

The model of `protocol/TinyMac.cpp`: frames that are encrypted and signed with AES-GCM.  Sizes and
the index into the packet are 8-bit values.

A frame is the command, the address, the frame counter, the data and a MIC of four bytes.
-/

/-- `TmFrameType_t`. -/
inductive TmFrameType where
  | joinReq | joinAccept | joinDenied | dataReq | dataAccept | dataDenied
  deriving DecidableEq, Repr

/-- The value of the enumerator. -/
def TmFrameType.toByte : TmFrameType → UInt8
  | joinReq => 0
  | joinAccept => 1
  | joinDenied => 2
  | dataReq => 3
  | dataAccept => 4
  | dataDenied => 5

/-- `TM_MAX_PAYLOAD_SIZE`. -/
def tmMaxPayloadSize : Nat := 240

/-- `TM_MAC_HEADER_SIZE`: the command, the address and the frame counter. -/
def tmMacHeaderSize : Nat := 1 + 4 + 4

/-- `TM_MAC_SIZE`: the header and the MIC. -/
def tmMacSize : Nat := tmMacHeaderSize + 4

/-- `TM_MAX_PACKET_SIZE`. -/
def tmMaxPacketSize : Nat := tmMaxPayloadSize + tmMacSize

/-- `TinyMac`. -/
structure TinyMac where
  mScratch : Buffer tmMaxPacketSize
  mPacket : Buffer tmMaxPacketSize
  mKey : Block
  mPayloadSize : UInt8
  mWrIndex : UInt8
  mFrameCounter : UInt32
  mDevAddr : UInt32
  deriving DecidableEq

/-- `beu32_put`. -/
def beu32Put (data : UInt32) : Bytes :=
  [(data >>> 24).toUInt8, (data >>> 16).toUInt8, (data >>> 8).toUInt8, data.toUInt8]

namespace TinyMac

/-- `SetKey`. -/
def setKey (m : TinyMac) (key : Block) : TinyMac := { m with mKey := key }

/-- `SetAddress`. -/
def setAddress (m : TinyMac) (addr : UInt32) : TinyMac := { m with mDevAddr := addr }

/-- `GetSize`. -/
def getSize (m : TinyMac) : UInt8 := UInt8.ofNat tmMacSize + m.mPayloadSize

/-- The first `GetSize()` bytes at `GetPacket()`. -/
def packet (m : TinyMac) : Bytes := m.mPacket.bytes.take m.getSize.toNat

/-- `GetDataSize`. -/
def getDataSize (m : TinyMac) : UInt8 := m.mPayloadSize

/-- The first `GetDataSize()` bytes at `GetData()`. -/
def getData (m : TinyMac) : Bytes := m.mScratch.bytes.take m.getDataSize.toNat

/-- `Reset`. -/
def reset (m : TinyMac) : TinyMac := { m with mPayloadSize := 0, mWrIndex := 0 }

/-- Bytes are written at `mWrIndex`, which is moved past them. -/
def append (m : TinyMac) (src : Bytes) : Except Fault TinyMac := do
  let mPacket ← m.mPacket.write m.mWrIndex.toNat src
  return { m with mPacket, mWrIndex := m.mWrIndex + UInt8.ofNat src.length }

/-- `AddHeader`. -/
def addHeader (m : TinyMac) (cmd : UInt8) : Except Fault TinyMac := do
  let m ← m.reset.append [cmd]
  -- The address and the counter, most significant byte first.
  let m ← m.append (beu32Put m.mDevAddr)
  m.append (beu32Put m.mFrameCounter)

/-- `AddBuffer`. -/
def addBuffer (m : TinyMac) (data : Bytes) (size : UInt8) : Except Fault TinyMac := do
  let src ← readBytes data 0 size.toNat
  let m ← m.append src
  return { m with mPayloadSize := m.mPayloadSize + size }

/-- One piece of a text: `count` bytes at `input + pos`, the output at `mScratch + outPos`. -/
def gcmPiece (prim : Gcm.Primitives) (ctx : Gcm.Context) (input : Bytes) (pos count outPos : Nat)
    (mScratch : Buffer tmMaxPacketSize) : Except Fault (Gcm.Context × Buffer tmMaxPacketSize) := do
  let piece ← readBytes input pos count
  let (ctx, output) := Gcm.update prim ctx piece
  let mScratch ← mScratch.write outPos output
  return (ctx, mScratch)

/-- A piece that is only given if there is something of it. -/
def gcmPieceIfAny (prim : Gcm.Primitives) (ctx : Gcm.Context) (input : Bytes)
    (pos count outPos : Nat) (mScratch : Buffer tmMaxPacketSize) :
    Except Fault (Gcm.Context × Buffer tmMaxPacketSize) :=
  if count > 0 then gcmPiece prim ctx input pos count outPos mScratch else .ok (ctx, mScratch)

/-- The packet of `MacFinish`: if `replace` is set, the encrypted data is copied over the clear
    text. -/
def replaceData (m : TinyMac) (mScratch : Buffer tmMaxPacketSize) (replace : Bool) :
    Except Fault (Buffer tmMaxPacketSize) :=
  if replace then do
    let encrypted ← readBytes mScratch.bytes 0 m.mPayloadSize.toNat
    m.mPacket.write tmMacHeaderSize encrypted
  else .ok m.mPacket

/-- The IV, which is the same for every frame. -/
def iv : Vector UInt8 12 := Vector.replicate 12 0

/-- `MacFinish`. -/
def macFinish (prim : Gcm.Primitives) (m : TinyMac) (replace : Bool) : Except Fault TinyMac := do
  let add ← readBytes m.mPacket.bytes 0 tmMacHeaderSize
  let ctx := Gcm.starts prim (Gcm.setkey prim m.mKey) .encrypt iv add
  -- GCM takes whole blocks of 16 bytes first, then the rest.
  let boundSize := (m.mPayloadSize.toNat >>> 4) * 16
  let lastPacketSize := m.mPayloadSize.toNat - boundSize
  let (ctx, mScratch) ←
    gcmPiece prim ctx m.mPacket.bytes tmMacHeaderSize boundSize 0 m.mScratch
  let (ctx, mScratch) ←
    gcmPieceIfAny prim ctx m.mPacket.bytes (tmMacHeaderSize + boundSize) lastPacketSize boundSize
      mScratch
  -- The first four bytes of the tag are the MIC.
  let mic := Gcm.finish prim ctx
  let mPacket ← m.replaceData mScratch replace
  { m with mScratch, mPacket }.append (mic.toList.take 4)

/-- `BuildJoinNetwork`. -/
def buildJoinNetwork (prim : Gcm.Primitives) (m : TinyMac) (devEui appEui : Bytes) :
    Except Fault TinyMac := do
  let m := { m with mFrameCounter := 0, mDevAddr := 0 }
  let m ← m.addHeader TmFrameType.joinReq.toByte
  let m ← m.addBuffer devEui 8
  let m ← m.addBuffer appEui 8
  m.macFinish prim false

/-- `BuildData`. -/
def buildData (prim : Gcm.Primitives) (m : TinyMac) (data : Bytes) : Except Fault TinyMac := do
  let m := { m with mFrameCounter := m.mFrameCounter + 1 }
  let m ← m.addHeader TmFrameType.dataReq.toByte
  -- `Size()` is cut down to 8 bits.
  let m ← m.addBuffer data (UInt8.ofNat data.length)
  m.macFinish prim true

/-- The four bytes at `data[size - 4]`, which is before the data if the frame is shorter. -/
def receivedMic (data : Bytes) (size : UInt8) : Except Fault Bytes :=
  if size.toNat < 4 then .error (.outOfBounds 0 data.length) else readBytes data (size.toNat - 4) 4

/-- `Decrypt`: whether the MIC is right. -/
def decrypt (prim : Gcm.Primitives) (m : TinyMac) (data : Bytes) (size : UInt8) :
    Except Fault (Bool × TinyMac) := do
  -- In 8 bits: a packet that is too short makes this a large size.
  let mPayloadSize := size - UInt8.ofNat tmMacSize
  let add ← readBytes data 0 tmMacHeaderSize
  let ctx := Gcm.starts prim (Gcm.setkey prim m.mKey) .decrypt iv add
  let boundSize := (mPayloadSize.toNat >>> 4) * 16
  let lastPacketSize := mPayloadSize.toNat - boundSize
  let (ctx, mScratch) ← gcmPieceIfAny prim ctx data tmMacHeaderSize boundSize 0 m.mScratch
  let (ctx, mScratch) ←
    gcmPieceIfAny prim ctx data (tmMacHeaderSize + boundSize) lastPacketSize boundSize mScratch
  let mic := Gcm.finish prim ctx
  let received ← receivedMic data size
  return (mic.toList.take 4 = received, { m with mPayloadSize, mScratch })

end TinyMac

end Icl.Protocol
