import Icl.Protocol.TinyMacRoundTrip

namespace Icl.Protocol

open Icl.Cxx Icl.Security

/-!
# The buffers of `TinyMac`

`BuildData` narrows the size of its data to eight bits, `Decrypt` takes the size of a frame minus
`TM_MAC_SIZE` in eight bits; neither checks it first.

* `TinyMac.buildData_take` — of a text, only the first bytes are looked at, as many as the narrowed
  size says;
* `TinyMac.defined_buildData_iff` — the writes stay inside the packet as long as these are at most
  `TM_MAX_PAYLOAD_SIZE`;
* `TinyMac.buildsWhole_iff` — when `BuildData` sends all of the data, or nothing of it;
* `TinyMac.decryptsSafely_iff` — when `Decrypt` stays inside the frame.
-/

namespace TinyMac

variable (prim : Gcm.Primitives)

/-! ### Where a frame is written -/

/-- What has been appended was appended inside the packet. -/
theorem append_fits {m sent : TinyMac} {src : Bytes} (h : m.append src = .ok sent) :
    m.mWrIndex.toNat + src.length ≤ tmMaxPacketSize ∧
      sent.mWrIndex = m.mWrIndex + UInt8.ofNat src.length := by
  rw [append, bind_eq_ok] at h
  obtain ⟨mPacket, hwrite, hsent⟩ := h
  obtain rfl := Except.ok.inj hsent
  exact ⟨Buffer.le_of_write hwrite, rfl⟩

theorem addBuffer_fits {m sent : TinyMac} {data : Bytes} {size : UInt8}
    (h : m.addBuffer data size = .ok sent) :
    m.mWrIndex.toNat + size.toNat ≤ tmMaxPacketSize ∧ sent.mWrIndex = m.mWrIndex + size := by
  rw [addBuffer, bind_eq_ok] at h
  obtain ⟨src, hread, h⟩ := h
  have hsrc : src.length = size.toNat := (length_of_readBytes hread).2
  obtain ⟨sent', happend, hsent⟩ := bind_eq_ok.mp h
  obtain rfl := Except.ok.inj hsent
  obtain ⟨hfit, hindex⟩ := append_fits happend
  rw [hsrc] at hfit
  refine ⟨hfit, hindex.trans ?_⟩
  rw [hsrc, UInt8.ofNat_toNat]

/-- A frame ends with its MIC. -/
theorem macFinish_fits {m sent : TinyMac} {replace : Bool}
    (h : m.macFinish prim replace = .ok sent) : m.mWrIndex.toNat + 4 ≤ tmMaxPacketSize := by
  rw [macFinish, bind_eq_ok] at h
  obtain ⟨add, -, h⟩ := h
  obtain ⟨⟨ctx, mScratch⟩, -, h⟩ := bind_eq_ok.mp h
  obtain ⟨⟨ctx', mScratch'⟩, -, h⟩ := bind_eq_ok.mp h
  obtain ⟨mPacket, -, happend⟩ := bind_eq_ok.mp h
  have hfit := (append_fits happend).1
  rwa [List.length_take_of_le (by simp)] at hfit

/-- Data that is too long for its size is cut. -/
theorem buildData_take (m : TinyMac) (data : Bytes) :
    m.buildData prim data = m.buildData prim (data.take (data.length % 256)) := by
  have hcut : data.length % 256 ≤ data.length := Nat.mod_le _ _
  have hlength : (data.take (data.length % 256)).length = data.length % 256 :=
    List.length_take_of_le hcut
  have hsize : UInt8.ofNat (data.length % 256) = UInt8.ofNat data.length := by
    rw [← UInt8.toNat_inj, UInt8.toNat_ofNat', UInt8.toNat_ofNat', Nat.mod_mod]
  have hread : readBytes data 0 (UInt8.ofNat data.length).toNat
      = readBytes (data.take (data.length % 256)) 0 (UInt8.ofNat data.length).toNat := by
    rw [UInt8.toNat_ofNat', readBytes_of_le (by omega),
      readBytes_of_le (by rw [hlength]; omega), List.drop_zero, List.drop_zero, List.take_take,
      Nat.min_self]
  have hadd (m : TinyMac) : m.addBuffer data (UInt8.ofNat data.length)
      = m.addBuffer (data.take (data.length % 256)) (UInt8.ofNat data.length) := by
    rw [addBuffer, addBuffer, hread]
  simp only [buildData, hlength, hsize, hadd]

/-- **The writes stay inside the packet** if there is room for the payload and the MIC. -/
theorem defined_buildData_iff (m : TinyMac) (data : Bytes) :
    Defined (m.buildData prim data) ↔ data.length % 256 ≤ tmMaxPayloadSize := by
  have hmax : tmMaxPayloadSize = 240 ∧ tmMaxPacketSize = 253 ∧ tmMacHeaderSize = 9 :=
    ⟨rfl, rfl, rfl⟩
  constructor
  -- The data comes behind the header and the MIC behind the data: both have to fit the packet.
  · rintro ⟨sent, hbuild⟩
    obtain ⟨mPacket, mWrIndex, hheader, hindex, -⟩ := addHeader_eq
      { m with mFrameCounter := m.mFrameCounter + 1 } TmFrameType.dataReq.toByte
    rw [buildData, hheader, ok_bind, bind_eq_ok] at hbuild
    obtain ⟨filled, hbuffer, hfinish⟩ := hbuild
    obtain ⟨hfit, hindex'⟩ := addBuffer_fits hbuffer
    have hmic := macFinish_fits prim hfinish
    rw [hindex', UInt8.toNat_add] at hmic
    rw [UInt8.toNat_ofNat'] at hfit hmic
    simp only [hindex] at hfit hmic
    omega
  · intro hfit
    have htake : (data.take (data.length % 256)).length ≤ tmMaxPayloadSize := by
      rw [List.length_take]
      omega
    rw [buildData_take]
    obtain ⟨sent, hbuild, -⟩ := buildData_eq prim m htake
    exact ⟨sent, hbuild⟩

/-! ### What a frame carries -/

/-- The frame that has been built is the one of these bytes. -/
def Carries (m sent : TinyMac) (carried : Bytes) : Prop :=
  sent.mPayloadSize.toNat = carried.length ∧
    sent.packet = frame prim m.mKey m.mDevAddr (m.mFrameCounter + 1) carried

/-- All accesses are inside the buffers, and the frame carries all of the data or nothing. -/
def BuildsWhole (m : TinyMac) (data : Bytes) : Prop :=
  ∃ sent carried, m.buildData prim data = .ok sent ∧ Carries prim m sent carried ∧
    (carried = data ∨ carried = [])

/-- A payload that fits is carried, and it may be only the first bytes of the data. -/
theorem buildData_carries (m : TinyMac) {data : Bytes}
    (hfit : data.length % 256 ≤ tmMaxPayloadSize) :
    ∃ sent, m.buildData prim data = .ok sent ∧
      Carries prim m sent (data.take (data.length % 256)) := by
  rw [buildData_take]
  exact buildData_eq prim m (by rw [List.length_take]; omega)

/-- **Whole data or nothing.**  `BuildData` keeps to its buffers and sends all of the data or
    nothing of it exactly when the data is at most `TM_MAX_PAYLOAD_SIZE` bytes long, or when its
    size is narrowed to zero. -/
theorem buildsWhole_iff (m : TinyMac) (data : Bytes) :
    BuildsWhole prim m data ↔ data.length ≤ 240 ∨ data.length % 256 = 0 := by
  have hmax : tmMaxPayloadSize = 240 := rfl
  constructor
  · rintro ⟨sent, carried, hbuild, ⟨hlength, -⟩, hcarried⟩
    have hfit := (defined_buildData_iff prim m data).mp ⟨sent, hbuild⟩
    obtain ⟨sent', hbuild', hlength', -⟩ := buildData_carries prim m hfit
    obtain rfl := Except.ok.inj (hbuild.symm.trans hbuild')
    rw [hlength, List.length_take_of_le (Nat.mod_le _ _)] at hlength'
    -- All of the data is in the frame when the 8-bit size is the length, nothing of it when it is
    -- zero.
    rcases hcarried with rfl | rfl
    · exact .inl (by omega)
    · exact .inr hlength'.symm
  · intro h
    have hfit : data.length % 256 ≤ tmMaxPayloadSize := by omega
    obtain ⟨sent, hbuild, hcarries⟩ := buildData_carries prim m hfit
    refine ⟨sent, _, hbuild, hcarries, ?_⟩
    rcases h with hshort | hzero
    · rw [Nat.mod_eq_of_lt (by omega), List.take_length]
      exact .inl rfl
    · rw [hzero, List.take_zero]
      exact .inr rfl

/-- Of 241 bytes the MIC is written behind the packet, and of 257 bytes one is sent. -/
theorem not_buildsWhole_241 :
    ¬ Defined ((counting 0).buildData ⟨fun _ => Gcm.zeroKeyAes, Gcm.tableMult⟩
      (List.replicate 241 0)) ∧
    ∃ sent, (counting 0).buildData ⟨fun _ => Gcm.zeroKeyAes, Gcm.tableMult⟩
        (List.replicate 257 0) = .ok sent ∧ sent.getDataSize = 1 := by
  constructor
  · rw [defined_buildData_iff, List.length_replicate]
    decide
  · have hfit : (List.replicate 257 (0 : UInt8)).length % 256 ≤ tmMaxPayloadSize := by
      rw [List.length_replicate]
      decide
    obtain ⟨sent, hbuild, hlength, -⟩ := buildData_carries
      ⟨fun _ => Gcm.zeroKeyAes, Gcm.tableMult⟩ (counting 0) hfit
    rw [List.length_take, List.length_replicate] at hlength
    exact ⟨sent, hbuild, UInt8.toNat_inj.mp hlength⟩

/-! ### Where a frame is read -/

/-- All reads are below `size` and all writes inside the scratch, and a frame that is too short is
    not accepted. -/
def DecryptsSafely (m : TinyMac) (data : Bytes) (size : UInt8) : Prop :=
  ∃ right received, m.decrypt prim (data.take size.toNat) size = .ok (right, received) ∧
    (size.toNat < tmMacSize → right = false)

/-- The header and the whole blocks of the payload are read from the frame. -/
theorem decrypt_fits {m : TinyMac} {data : Bytes} {size : UInt8}
    (h : Defined (m.decrypt prim data size)) :
    tmMacHeaderSize ≤ data.length ∧
      (0 < boundSize (size - UInt8.ofNat tmMacSize).toNat →
        tmMacHeaderSize + boundSize (size - UInt8.ofNat tmMacSize).toNat ≤ data.length) := by
  obtain ⟨r, h⟩ := h
  rw [decrypt, bind_eq_ok] at h
  obtain ⟨add, hadd, h⟩ := h
  obtain ⟨⟨ctx, mScratch⟩, hfirst, -⟩ := bind_eq_ok.mp h
  refine ⟨?_, fun hpos => ?_⟩
  · have hread := (length_of_readBytes hadd).1
    rwa [Nat.zero_add] at hread
  · rw [gcmPieceIfAny, ← boundSize, if_pos hpos, gcmPiece, bind_eq_ok] at hfirst
    obtain ⟨piece, hpiece, -⟩ := hfirst
    exact (length_of_readBytes hpiece).1

/-- **The frame is kept to** exactly when it is not shorter than `TM_MAC_SIZE`: no frame is rejected
    for its size, and of a shorter one more bytes are read than there are. -/
theorem decryptsSafely_iff (m : TinyMac) (data : Bytes) (size : UInt8)
    (hsize : size.toNat ≤ data.length) : DecryptsSafely prim m data size ↔ 13 ≤ size.toNat := by
  have hmax : tmMacSize = 13 ∧ tmMacHeaderSize = 9 := ⟨rfl, rfl⟩
  have hlength : (data.take size.toNat).length = size.toNat := List.length_take_of_le hsize
  constructor
  · rintro ⟨right, received, hdecrypt, -⟩
    obtain ⟨hheader, hblocks⟩ := decrypt_fits prim ⟨_, hdecrypt⟩
    rw [hlength] at hheader hblocks
    by_contra hshort
    -- The size of the payload is 252 to 255.
    have hpayload : (size - UInt8.ofNat tmMacSize).toNat = 243 + size.toNat := by
      rw [UInt8.toNat_sub, UInt8.toNat_ofNat']
      omega
    have hbound : boundSize (size - UInt8.ofNat tmMacSize).toNat = 240 := by
      rw [hpayload, boundSize, Nat.shiftRight_eq_div_pow]
      omega
    rw [hbound] at hblocks
    have := hblocks (by decide)
    omega
  · intro hlong
    set packet := data.take size.toNat with hpacket
    obtain ⟨mScratch, mPayloadSize, hdecrypt, -⟩ := decrypt_frame prim m
      (show (packet.take 9).length = tmMacHeaderSize by rw [List.length_take]; omega)
      (show ((packet.drop 9).drop (size.toNat - 13)).length = 4 by
        rw [List.length_drop, List.length_drop]; omega)
      (show size.toNat = tmMacSize + ((packet.drop 9).take (size.toNat - 13)).length by
        rw [List.length_take, List.length_drop]; omega)
    rw [List.take_append_drop, List.take_append_drop] at hdecrypt
    exact ⟨_, _, hdecrypt, fun hshort => absurd hshort (by omega)⟩

/-- Thirteen bytes are a frame without data. -/
theorem decryptsSafely_13 :
    DecryptsSafely ⟨fun _ => Gcm.zeroKeyAes, Gcm.tableMult⟩ (counting 0) (List.replicate 13 0) 13 :=
  (decryptsSafely_iff _ _ _ 13 (by decide)).mpr (by decide)

/-- Of an empty frame the header is read. -/
theorem not_decryptsSafely_empty :
    ¬ DecryptsSafely ⟨fun _ => Gcm.zeroKeyAes, Gcm.tableMult⟩ (counting 0) [] 0 := by
  rintro ⟨right, received, hdecrypt, -⟩
  have hread := (decrypt_fits _ ⟨_, hdecrypt⟩).1
  exact absurd hread (by decide)

end TinyMac

end Icl.Protocol
