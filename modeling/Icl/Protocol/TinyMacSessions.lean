import Icl.Protocol.TinyMacRoundTrip
import Icl.Security.AesStandard

namespace Icl.Protocol

open Icl.Cxx Icl.Format Icl.Security

/-!
# Sessions of `TinyMac`

What the frames of `TinyMac` are by NIST SP 800-38D and FIPS 197, and what becomes of many of them
that are sent with one key.

* `buildData_aes`, `decrypt_aes` — a frame is AES-GCM with an IV of zeros, the header being the
  additional data;
* `decryptAll_buildAll` — frames that are sent one after the other and come in any order, any number
  of times;
* `buildData_xor` — two frames of one key.
-/

namespace TinyMac

/-- A block cipher, and the tables for the multiplication. -/
def withTables (encrypt : Block → Block → Block) : Gcm.Primitives := ⟨encrypt, Gcm.tableMult⟩

variable (encrypt : Block → Block → Block)

/-- The block cipher with a key. -/
def keyed (key : Block) : BitVec 128 → BitVec 128 := Gcm.ciph (withTables encrypt) key

theorem bits_withTables (h x : Block) :
    ((withTables encrypt).mult h x).bits = Gf128.mul x.bits h.bits :=
  Gcm.bits_tableMult h x

/-! ### A frame is GCM -/

/-- A frame of data by the standard. -/
def standardFrame (key : Block) (addr counter : UInt32) (data : Bytes) : Bytes :=
  let hdr := header TmFrameType.dataReq.toByte addr counter
  let sealed := Sp80038d.encrypt (keyed encrypt key) iv.toList hdr data
  hdr ++ (sealed.1 ++ sealed.2.take 4)

theorem frame_standard (key : Block) (addr counter : UInt32) {data : Bytes}
    (hdata : data.length ≤ tmMaxPayloadSize) :
    frame (withTables encrypt) key addr counter data
      = standardFrame encrypt key addr counter data := by
  have hmax : tmMaxPayloadSize = 240 := rfl
  have hhdr : (header TmFrameType.dataReq.toByte addr counter).length < 2 ^ 61 := by
    rw [length_header]
    decide
  have hstandard := (Gcm.cryptAndTag_hashed (bits_withTables encrypt) key iv
    .encrypt hhdr (show data.length ≤ _ by omega))
  rw [frame, standardFrame, Sp80038d.encrypt, hstandard.1, hstandard.2, hstandard.1]
  rfl

/-- **What is sent**, with `aes.c` and the tables of `gcm.c`: the header, the data as AES-GCM
    encrypts it with an IV of zeros, and the first four bytes of the tag. -/
theorem buildData_aes (m : TinyMac) (data : Bytes) (hdata : data.length ≤ 240) :
    let hdr := [3] ++ beu32Put m.mDevAddr ++ beu32Put (m.mFrameCounter + 1)
    let sealed := Sp80038d.encrypt (Aes.standard128 m.mKey) (List.replicate 12 0) hdr data
    ∃ sent, m.buildData (withTables Aes.aes128) data = .ok sent ∧
      sent.packet = hdr ++ (sealed.1 ++ sealed.2.take 4) := by
  intro hdr sealed
  obtain ⟨sent, hbuild, -, hpacket⟩ := buildData_eq (withTables Aes.aes128) m hdata
  refine ⟨sent, hbuild, ?_⟩
  rw [hpacket, frame_standard Aes.aes128 _ _ _ hdata, standardFrame, keyed, withTables,
    Aes.ciph_aes128]
  rfl

/-- A frame with a block of data and a part of another one. -/
theorem buildData_aes_text :
    let hdr : Bytes := [3, 0, 0, 0, 0, 0, 0, 0, 1]
    let sealed := Sp80038d.encrypt (Aes.standard128 Gcm.zeroBlock) (List.replicate 12 0) hdr
      (ascii "twenty bytes of data")
    ∃ sent, (counting 0).buildData (withTables Aes.aes128) (ascii "twenty bytes of data")
        = .ok sent ∧
      sent.packet = hdr ++ (sealed.1 ++ sealed.2.take 4) :=
  buildData_aes (counting 0) (ascii "twenty bytes of data") (by decide)

/-- What is made of a frame of any size, for every block cipher. -/
theorem decrypt_standard (m : TinyMac) {hdr cipher mic : Bytes}
    (hhdr : hdr.length = tmMacHeaderSize) (hmic : mic.length = 4)
    (hcipher : tmMacSize + cipher.length < 256) :
    ∃ received, m.decrypt (withTables encrypt) (hdr ++ (cipher ++ mic))
        (UInt8.ofNat (tmMacSize + cipher.length)) = .ok
          (decide ((Sp80038d.tag (keyed encrypt m.mKey) iv.toList hdr cipher).take 4 = mic),
            received) ∧
      received.getData = Sp80038d.gctr (keyed encrypt m.mKey)
        (Sp80038d.inc32 (Sp80038d.preCounter iv.toList)) cipher ∧
      received.mKey = m.mKey := by
  have hsize : (UInt8.ofNat (tmMacSize + cipher.length)).toNat = tmMacSize + cipher.length := by
    rw [UInt8.toNat_ofNat']
    omega
  have hshort : hdr.length < 2 ^ 61 := by
    rw [hhdr]
    decide
  obtain ⟨mScratch, mPayloadSize, hdecrypt, hn, htake⟩ :=
    decrypt_frame (withTables encrypt) m hhdr hmic hsize
  obtain ⟨houtput, htag⟩ := Gcm.cryptAndTag_hashed (bits_withTables encrypt)
    m.mKey iv .decrypt hshort (show cipher.length ≤ _ by omega)
  rw [Gcm.cryptAndTag_eq] at houtput htag
  refine ⟨{ m with mScratch, mPayloadSize }, ?_, ?_, rfl⟩
  · rw [hdecrypt, htag]
    rfl
  · show mScratch.bytes.take mPayloadSize.toNat = _
    rw [hn, htake]
    exact houtput

/-- **Every packet that is received**, of at least 13 bytes: the data is what AES-GCM decrypts with
    an IV of zeros, and the packet is taken for right when its last four bytes are the start of the
    tag. -/
theorem decrypt_aes (m : TinyMac) (packet : Bytes) (hmin : 13 ≤ packet.length)
    (hmax : packet.length ≤ 255) :
    let cipher := (packet.drop 9).take (packet.length - 13)
    ∃ received, m.decrypt (withTables Aes.aes128) packet (UInt8.ofNat packet.length) = .ok
        (decide ((Sp80038d.tag (Aes.standard128 m.mKey) (List.replicate 12 0) (packet.take 9)
          cipher).take 4 = packet.drop (packet.length - 4)), received) ∧
      received.getData = Sp80038d.gctr (Aes.standard128 m.mKey)
        (Sp80038d.inc32 (Sp80038d.preCounter (List.replicate 12 0))) cipher := by
  intro cipher
  have hsizes : tmMacSize = 13 ∧ tmMacHeaderSize = 9 := ⟨rfl, rfl⟩
  have hcipher : cipher.length = packet.length - 13 := by
    rw [List.length_take, List.length_drop]
    omega
  obtain ⟨received, hdecrypt, hdata, -⟩ := decrypt_standard Aes.aes128 m
    (show (packet.take 9).length = tmMacHeaderSize by rw [List.length_take]; omega)
    (show (packet.drop (packet.length - 4)).length = 4 by rw [List.length_drop]; omega)
    (show tmMacSize + cipher.length < 256 by omega)
  -- Header, cipher text and MIC are the three parts of the packet.
  have hrest : (packet.drop 9).drop (packet.length - 13) = packet.drop (packet.length - 4) := by
    rw [List.drop_drop]
    congr 1
    omega
  have hpacket : packet.take 9 ++ (cipher ++ packet.drop (packet.length - 4)) = packet := by
    rw [← hrest, List.take_append_drop, List.take_append_drop]
  have hsize : tmMacSize + cipher.length = packet.length := by omega
  rw [hpacket, hsize, keyed, withTables, Aes.ciph_aes128] at hdecrypt
  rw [keyed, withTables, Aes.ciph_aes128] at hdata
  exact ⟨received, hdecrypt, hdata⟩

/-- A packet of a header, twenty bytes and a MIC, which is right if it is the start of the tag. -/
theorem decrypt_aes_text :
    let hdr : Bytes := [3, 0, 0, 0, 0, 0, 0, 0, 1]
    let cipher := ascii "twenty cipher bytes!"
    let mic : Bytes := [1, 2, 3, 4]
    ∃ received, (counting 0).decrypt (withTables Aes.aes128) (hdr ++ (cipher ++ mic)) 33 = .ok
        (decide ((Sp80038d.tag (Aes.standard128 Gcm.zeroBlock) (List.replicate 12 0) hdr
          cipher).take 4 = mic), received) ∧
      received.getData = Sp80038d.gctr (Aes.standard128 Gcm.zeroBlock)
        (Sp80038d.inc32 (Sp80038d.preCounter (List.replicate 12 0))) cipher :=
  decrypt_aes (counting 0)
    ([3, 0, 0, 0, 0, 0, 0, 0, 1] ++ (ascii "twenty cipher bytes!" ++ [1, 2, 3, 4])) (by decide)
    (by decide)

/-! ### What a frame leaves as it is -/

/-- The key and the address are the same, and so is the counter. -/
def Keeps (m m' : TinyMac) : Prop :=
  m'.mKey = m.mKey ∧ m'.mDevAddr = m.mDevAddr ∧ m'.mFrameCounter = m.mFrameCounter

theorem Keeps.trans {a b c : TinyMac} (hab : Keeps a b) (hbc : Keeps b c) : Keeps a c :=
  ⟨hbc.1.trans hab.1, hbc.2.1.trans hab.2.1, hbc.2.2.trans hab.2.2⟩

theorem append_keeps {m m' : TinyMac} {src : Bytes} (h : m.append src = .ok m') : Keeps m m' := by
  rw [append, bind_eq_ok] at h
  obtain ⟨mPacket, -, h⟩ := h
  cases h
  exact ⟨rfl, rfl, rfl⟩

theorem addHeader_keeps {m m' : TinyMac} {cmd : UInt8} (h : m.addHeader cmd = .ok m') :
    Keeps m m' := by
  rw [addHeader, bind_eq_ok] at h
  obtain ⟨m₁, h₁, h⟩ := h
  obtain ⟨m₂, h₂, h₃⟩ := bind_eq_ok.mp h
  exact (append_keeps h₁).trans ((append_keeps h₂).trans (append_keeps h₃))

theorem addBuffer_keeps {m m' : TinyMac} {data : Bytes} {size : UInt8}
    (h : m.addBuffer data size = .ok m') : Keeps m m' := by
  rw [addBuffer, bind_eq_ok] at h
  obtain ⟨src, -, h⟩ := h
  obtain ⟨m₁, h₁, h⟩ := bind_eq_ok.mp h
  cases h
  obtain ⟨hkey, haddr, hcounter⟩ := append_keeps h₁
  exact ⟨hkey, haddr, hcounter⟩

theorem macFinish_keeps {prim : Gcm.Primitives} {m m' : TinyMac} {replace : Bool}
    (h : m.macFinish prim replace = .ok m') : Keeps m m' := by
  rw [macFinish, bind_eq_ok] at h
  obtain ⟨add, -, h⟩ := h
  obtain ⟨r₁, -, h⟩ := bind_eq_ok.mp h
  obtain ⟨r₂, -, h⟩ := bind_eq_ok.mp h
  obtain ⟨mPacket, -, h⟩ := bind_eq_ok.mp h
  obtain ⟨hkey, haddr, hcounter⟩ := append_keeps h
  exact ⟨hkey, haddr, hcounter⟩

theorem buildData_keeps {prim : Gcm.Primitives} {m m' : TinyMac} {data : Bytes}
    (h : m.buildData prim data = .ok m') :
    Keeps { m with mFrameCounter := m.mFrameCounter + 1 } m' := by
  rw [buildData, bind_eq_ok] at h
  obtain ⟨m₁, h₁, h⟩ := h
  obtain ⟨m₂, h₂, h₃⟩ := bind_eq_ok.mp h
  exact (addHeader_keeps h₁).trans ((addBuffer_keeps h₂).trans (macFinish_keeps h₃))

/-! ### Many frames -/

/-- `BuildData` for one text after the other: the object at the end, and the packets. -/
def buildAll (prim : Gcm.Primitives) : TinyMac → List Bytes → Except Fault (TinyMac × List Bytes)
  | m, [] => .ok (m, [])
  | m, data :: rest => do
    let sent ← m.buildData prim data
    let (last, packets) ← buildAll prim sent rest
    return (last, sent.packet :: packets)

/-- `Decrypt` for one packet after the other: the data of those whose MIC is right. -/
def decryptAll (prim : Gcm.Primitives) :
    TinyMac → List Bytes → Except Fault (TinyMac × List (Option Bytes))
  | m, [] => .ok (m, [])
  | m, packet :: rest => do
    let (right, received) ← m.decrypt prim packet (UInt8.ofNat packet.length)
    let (last, datas) ← decryptAll prim received rest
    return (last, (if right then some received.getData else none) :: datas)

/-- The frames that are sent for some texts. -/
def frames (key : Block) (addr : UInt32) : UInt32 → List Bytes → List Bytes
  | _, [] => []
  | counter, data :: rest =>
    standardFrame encrypt key addr (counter + 1) data :: frames key addr (counter + 1) rest

@[simp] theorem length_frames (key : Block) (addr counter : UInt32) (datas : List Bytes) :
    (frames encrypt key addr counter datas).length = datas.length := by
  induction datas generalizing counter with
  | nil => rfl
  | cons data rest ih => rw [frames, List.length_cons, ih, List.length_cons]

/-- Frame `i`. -/
theorem getElem?_frames (key : Block) (addr counter : UInt32) (datas : List Bytes) (i : Nat) :
    (frames encrypt key addr counter datas)[i]? = datas[i]?.map
      (standardFrame encrypt key addr (counter + UInt32.ofNat (i + 1))) := by
  induction datas generalizing counter i with
  | nil => rfl
  | cons data rest ih =>
    cases i with
    | zero => rfl
    | succ i =>
      have hcounter : counter + 1 + UInt32.ofNat (i + 1) = counter + UInt32.ofNat (i + 1 + 1) := by
        rw [UInt32.add_assoc, UInt32.add_comm 1, UInt32.ofNat_add (i + 1) 1]
        rfl
      rw [frames, List.getElem?_cons_succ, List.getElem?_cons_succ, ih, hcounter]

/-- **What is sent**, the frame counter going on from text to text. -/
theorem buildAll_eq (m : TinyMac) {datas : List Bytes}
    (hdatas : ∀ data ∈ datas, data.length ≤ tmMaxPayloadSize) :
    ∃ last, buildAll (withTables encrypt) m datas
        = .ok (last, frames encrypt m.mKey m.mDevAddr m.mFrameCounter datas) := by
  induction datas generalizing m with
  | nil => exact ⟨m, rfl⟩
  | cons data rest ih =>
    obtain ⟨hdata, hrest⟩ := List.forall_mem_cons.mp hdatas
    obtain ⟨sent, hbuild, -, hpacket⟩ := buildData_eq (withTables encrypt) m hdata
    obtain ⟨hkey, haddr, hcounter⟩ := buildData_keeps hbuild
    obtain ⟨last, hall⟩ := ih sent hrest
    rw [frame_standard encrypt _ _ _ hdata] at hpacket
    refine ⟨last, ?_⟩
    rw [buildAll, hbuild, ok_bind, hall, ok_bind, frames, hpacket, hkey, haddr, hcounter]
    rfl

theorem length_standardFrame (key : Block) (addr counter : UInt32) (data : Bytes) :
    (standardFrame encrypt key addr counter data).length = tmMacSize + data.length := by
  have hmax : tmMacSize = 13 ∧ tmMacHeaderSize = 9 := ⟨rfl, rfl⟩
  rw [standardFrame, List.length_append, List.length_append, length_header, Sp80038d.encrypt,
    Sp80038d.length_gctr, List.length_take, Sp80038d.tag, Sp80038d.length_gctr,
    Sp80038d.length_toBytes]
  omega

/-- One frame, and the object that goes on. -/
theorem decrypt_standardFrame (m : TinyMac) (addr counter : UInt32) {data : Bytes}
    (hdata : data.length ≤ tmMaxPayloadSize) :
    ∃ received, m.decrypt (withTables encrypt) (standardFrame encrypt m.mKey addr counter data)
        (UInt8.ofNat (standardFrame encrypt m.mKey addr counter data).length)
          = .ok (true, received) ∧
      received.getData = data ∧ received.mKey = m.mKey := by
  have hmax : tmMaxPayloadSize = 240 ∧ tmMacSize = 13 ∧ tmMacHeaderSize = 9 := ⟨rfl, rfl, rfl⟩
  have hhdr := length_header TmFrameType.dataReq.toByte addr counter
  have hsize : (UInt8.ofNat (standardFrame encrypt m.mKey addr counter data).length).toNat
      = tmMacSize + data.length := by
    rw [length_standardFrame, UInt8.toNat_ofNat']
    omega
  obtain ⟨mScratch, mPayloadSize, hdecrypt, hn, htake⟩ :=
    decrypt_eq (withTables encrypt) m hhdr hsize
  refine ⟨{ m with mScratch, mPayloadSize }, ?_, ?_, rfl⟩
  · rw [← frame_standard encrypt _ _ _ hdata] at hdecrypt ⊢
    exact hdecrypt
  · show mScratch.bytes.take mPayloadSize.toNat = data
    rw [hn, htake]

/-- **Frames in any order.**  Each frame of a session is taken for right whenever it comes and
    however often, and gives its data; nothing is made of the frame counters. -/
theorem decryptAll_buildAll (sender receiver : TinyMac) (hkey : receiver.mKey = sender.mKey)
    (datas : List Bytes) (hdatas : ∀ data ∈ datas, data.length ≤ 240) :
    ∃ last packets, buildAll (withTables encrypt) sender datas = .ok (last, packets) ∧
      packets = frames encrypt sender.mKey sender.mDevAddr sender.mFrameCounter datas ∧
      ∀ order : List Nat, ∃ received,
        decryptAll (withTables encrypt) receiver (order.filterMap fun i => packets[i]?)
          = .ok (received, order.filterMap fun i => datas[i]?.map some) := by
  obtain ⟨last, hall⟩ := buildAll_eq encrypt sender hdatas
  refine ⟨last, _, hall, rfl, fun order => ?_⟩
  clear hall
  induction order generalizing receiver with
  | nil => exact ⟨receiver, rfl⟩
  | cons i order ih =>
    rw [List.filterMap_cons, List.filterMap_cons, getElem?_frames]
    cases hi : datas[i]? with
    | none => exact ih receiver hkey
    | some data =>
      have hdata : data.length ≤ 240 := hdatas data (List.mem_of_getElem? hi)
      obtain ⟨next, hdecrypt, hget, hnext⟩ := decrypt_standardFrame encrypt receiver
        sender.mDevAddr (sender.mFrameCounter + UInt32.ofNat (i + 1)) hdata
      obtain ⟨received, hrest⟩ := ih next (hnext.trans hkey)
      rw [hkey] at hdecrypt
      refine ⟨received, ?_⟩
      simp only [Option.map_some, decryptAll, hdecrypt, ok_bind, hrest, if_true, hget, pure_eq_ok]

/-- Two texts, of which the second one comes twice and before the first one. -/
theorem decryptAll_buildAll_twice : ∃ last packets received,
    buildAll (withTables Aes.aes128) (counting 0) [ascii "one", ascii "two"] = .ok (last, packets) ∧
      decryptAll (withTables Aes.aes128) (counting 7) ([1, 1, 0].filterMap fun i => packets[i]?)
        = .ok (received, [some (ascii "two"), some (ascii "two"), some (ascii "one")]) := by
  obtain ⟨last, packets, hbuild, -, horder⟩ := decryptAll_buildAll Aes.aes128 (counting 0)
    (counting 7) rfl [ascii "one", ascii "two"] (by decide)
  obtain ⟨received, hdecrypt⟩ := horder [1, 1, 0]
  exact ⟨last, packets, received, hbuild, hdecrypt⟩

/-- What a packet holds between the header and the MIC. -/
def sealedData (packet : Bytes) : Bytes :=
  (packet.drop tmMacHeaderSize).take (packet.length - tmMacSize)

theorem sealedData_standardFrame (key : Block) (addr counter : UInt32) (data : Bytes) :
    sealedData (standardFrame encrypt key addr counter data) = Sp80038d.gctr (keyed encrypt key)
      (Sp80038d.inc32 (Sp80038d.preCounter iv.toList)) data := by
  have hhdr := length_header TmFrameType.dataReq.toByte addr counter
  have hlength := length_standardFrame encrypt key addr counter data
  rw [sealedData, hlength, Nat.add_sub_cancel_left, standardFrame, List.drop_left' hhdr]
  exact List.take_left' (Sp80038d.length_gctr _ _ _)

/-- **One keystream.**  Where two frames have been sealed with one key, by whatever objects and with
    whatever addresses and frame counters, the frames differ as the texts do. -/
theorem buildData_xor (m m' : TinyMac) (hkey : m'.mKey = m.mKey) (data data' : Bytes)
    (hdata : data.length ≤ 240) (hdata' : data'.length ≤ 240) :
    ∃ sent sent', m.buildData (withTables encrypt) data = .ok sent ∧
      m'.buildData (withTables encrypt) data' = .ok sent' ∧
      (sealedData sent.packet).zipWith (· ^^^ ·) (sealedData sent'.packet)
        = data.zipWith (· ^^^ ·) data' := by
  obtain ⟨sent, hbuild, -, hpacket⟩ := buildData_eq (withTables encrypt) m hdata
  obtain ⟨sent', hbuild', -, hpacket'⟩ := buildData_eq (withTables encrypt) m' hdata'
  refine ⟨sent, sent', hbuild, hbuild', ?_⟩
  rw [hpacket, hpacket', frame_standard encrypt _ _ _ hdata, frame_standard encrypt _ _ _ hdata',
    sealedData_standardFrame, sealedData_standardFrame, hkey, Sp80038d.gctr_xor]

/-- Two texts of one byte each. -/
theorem buildData_xor_byte : ∃ sent sent',
    (counting 0).buildData (withTables Aes.aes128) [0x41] = .ok sent ∧
      (counting 7).buildData (withTables Aes.aes128) [0x42] = .ok sent' ∧
      (sealedData sent.packet).zipWith (· ^^^ ·) (sealedData sent'.packet) = [0x03] :=
  buildData_xor Aes.aes128 (counting 0) (counting 7) rfl [0x41] [0x42] (by decide) (by decide)

end TinyMac

end Icl.Protocol
