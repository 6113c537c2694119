import Icl.Protocol.TinyMac

namespace Icl.Protocol

open Icl.Cxx Icl.Security

/-!
# A frame and back

* `TinyMac.fills_whole`, `TinyMac.Fills.rest` — a text that is given to `mbedtls_gcm_update` in two
  pieces comes out as it would in one;
* `TinyMac.macFinish_eq`, `TinyMac.buildData_eq` — the frame that a header and data are made into;
* `TinyMac.decrypt_frame`, `TinyMac.decrypt_eq` — what is made of a frame, and of such a frame;
* `TinyMac.decrypt_buildData` — what one object has built, any other one with the same key decrypts.
-/

namespace TinyMac

variable (prim : Gcm.Primitives)

/-! ### Pieces of a text -/

/-- A piece has been processed, and its output stands at `outPos`. -/
def Fills (ctx : Gcm.Context) (piece : Bytes) (outPos : Nat) (mScratch : Buffer tmMaxPacketSize)
    (r : Except Fault (Gcm.Context × Buffer tmMaxPacketSize)) : Prop :=
  ∃ mScratch', r = .ok ((Gcm.update prim ctx piece).1, mScratch') ∧
    mScratch'.bytes.take (outPos + piece.length)
      = mScratch.bytes.take outPos ++ (Gcm.update prim ctx piece).2

theorem fills_gcmPiece (ctx : Gcm.Context) (pre piece rest : Bytes) (outPos : Nat)
    (mScratch : Buffer tmMaxPacketSize) (hfit : outPos + piece.length ≤ tmMaxPacketSize)
    (hsize : ctx.len + piece.length ≤ 0xFFFFFFFE0) :
    Fills prim ctx piece outPos mScratch
      (gcmPiece prim ctx (pre ++ (piece ++ rest)) pre.length piece.length outPos mScratch) := by
  have hlength := Gcm.length_update prim ctx hsize
  have hfit' : outPos + (Gcm.update prim ctx piece).2.length ≤ tmMaxPacketSize := by
    rw [hlength]
    exact hfit
  refine ⟨mScratch.put outPos _ hfit', ?_, ?_⟩
  · simp only [gcmPiece, readBytes_append, ok_bind, Buffer.write_of_le mScratch hfit', pure_eq_ok]
  · rw [← hlength, Buffer.take_put]

variable {prim}

/-- A piece that is empty may be left out. -/
theorem Fills.ifAny {ctx : Gcm.Context} {input piece : Bytes} {pos count outPos : Nat}
    {mScratch : Buffer tmMaxPacketSize} (hcount : piece.length = count)
    (hsize : ctx.len ≤ 0xFFFFFFFE0)
    (h : Fills prim ctx piece outPos mScratch (gcmPiece prim ctx input pos count outPos mScratch)) :
    Fills prim ctx piece outPos mScratch
      (gcmPieceIfAny prim ctx input pos count outPos mScratch) := by
  unfold gcmPieceIfAny
  by_cases hpos : count > 0
  · rwa [if_pos hpos]
  · obtain rfl := List.length_eq_zero_iff.mp (hcount.trans (Nat.eq_zero_of_not_pos hpos))
    rw [if_neg hpos]
    refine ⟨mScratch, ?_, ?_⟩
    · rw [Gcm.update_nil prim ctx hsize]
    · rw [Gcm.update_nil prim ctx hsize, List.length_nil, Nat.add_zero, List.append_nil]

/-- The whole blocks of a payload. -/
def boundSize (size : Nat) : Nat := (size >>> 4) * 16

theorem boundSize_le (size : Nat) : boundSize size ≤ size ∧ boundSize size % 16 = 0 := by
  rw [boundSize, Nat.shiftRight_eq_div_pow]
  omega

variable (prim) in
/-- The whole blocks of a text behind a header. -/
theorem fills_whole {ctx : Gcm.Context} (hctx : ctx.len = 0) (pre text rest : Bytes)
    (mScratch : Buffer tmMaxPacketSize) (hfit : text.length ≤ tmMaxPacketSize) :
    Fills prim ctx (text.take (boundSize text.length)) 0 mScratch
      (gcmPiece prim ctx (pre ++ (text ++ rest)) pre.length (boundSize text.length) 0
        mScratch) := by
  have hmax : tmMaxPacketSize = 253 := rfl
  obtain ⟨hle, -⟩ := boundSize_le text.length
  have hlength : (text.take (boundSize text.length)).length = boundSize text.length :=
    List.length_take_of_le hle
  have hpiece := fills_gcmPiece prim ctx pre (text.take (boundSize text.length))
    (text.drop (boundSize text.length) ++ rest) 0 mScratch (by omega) (by omega)
  rwa [← List.append_assoc (text.take _), List.take_append_drop, hlength] at hpiece

/-- **The two pieces of a text**, once the first one has been processed: the second one ends what
    one call on the whole text would do. -/
theorem Fills.rest {ctx : Gcm.Context} (hctx : ctx.len = 0) (pre : Bytes) {text : Bytes}
    (rest : Bytes) {mScratch : Buffer tmMaxPacketSize}
    {first : Except Fault (Gcm.Context × Buffer tmMaxPacketSize)}
    (hfit : text.length ≤ tmMaxPacketSize)
    (hfirst : Fills prim ctx (text.take (boundSize text.length)) 0 mScratch first) :
    ∃ ctx₁ s₁ s₂, first = .ok (ctx₁, s₁) ∧
      gcmPieceIfAny prim ctx₁ (pre ++ (text ++ rest)) (pre.length + boundSize text.length)
          (text.length - boundSize text.length) (boundSize text.length) s₁
        = .ok ((Gcm.update prim ctx text).1, s₂) ∧
      s₂.bytes.take text.length = (Gcm.update prim ctx text).2 := by
  have hmax : tmMaxPacketSize = 253 := rfl
  obtain ⟨hle, hmod⟩ := boundSize_le text.length
  obtain ⟨s₁, hfirst, htake₁⟩ := hfirst
  have hwhole : (text.take (boundSize text.length)).length = boundSize text.length :=
    List.length_take_of_le hle
  have hrest : (text.drop (boundSize text.length)).length = text.length - boundSize text.length :=
    List.length_drop
  have hlen := Gcm.len_update prim ctx
    (show ctx.len + (text.take (boundSize text.length)).length ≤ _ by omega)
  -- The limit of `mbedtls_gcm_update` is far away.
  have hlimit : ctx.len
      + (text.take (boundSize text.length) ++ text.drop (boundSize text.length)).length
      ≤ 0xFFFFFFFE0 := by
    rw [List.take_append_drop]
    omega
  have happend := Gcm.update_append prim ctx (by rw [hwhole]; exact hmod) hlimit
  have hsecond := (fills_gcmPiece prim (Gcm.update prim ctx (text.take (boundSize text.length))).1
    (pre ++ text.take (boundSize text.length)) (text.drop (boundSize text.length)) rest
    (boundSize text.length) s₁ (by omega) (by omega)).ifAny rfl (by omega)
  obtain ⟨s₂, hsecond, htake₂⟩ := hsecond
  rw [List.append_assoc, ← List.append_assoc (text.take _), List.take_append_drop,
    List.length_append, hwhole, hrest] at hsecond
  rw [Nat.zero_add, hwhole, List.take_zero, List.nil_append] at htake₁
  rw [List.take_append_drop] at happend
  refine ⟨_, s₁, s₂, hfirst, ?_, ?_⟩
  · rw [hsecond, happend]
  · rw [happend, ← htake₁, ← htake₂, hrest]
    congr 1
    omega

/-! ### Building a frame -/

/-- Bytes that fit are added to what stands in front of `mWrIndex`. -/
theorem append_eq (m : TinyMac) (pre src : Bytes) (hindex : m.mWrIndex.toNat = pre.length)
    (hpre : m.mPacket.bytes.take pre.length = pre)
    (hfit : pre.length + src.length ≤ tmMaxPacketSize) :
    ∃ mPacket mWrIndex, m.append src = .ok { m with mPacket, mWrIndex } ∧
      mWrIndex.toNat = (pre ++ src).length ∧
      mPacket.bytes.take (pre ++ src).length = pre ++ src := by
  have hmax : tmMaxPacketSize = 253 := rfl
  rw [← hindex] at hfit
  refine ⟨m.mPacket.put m.mWrIndex.toNat src hfit, m.mWrIndex + UInt8.ofNat src.length, ?_, ?_, ?_⟩
  · rw [append, Buffer.write_of_le _ hfit]
    rfl
  · rw [UInt8.toNat_add, UInt8.toNat_ofNat', List.length_append, ← hindex]
    omega
  · rw [List.length_append, ← hindex, Buffer.take_put, hindex, hpre]

/-- The header of a frame. -/
def header (cmd : UInt8) (addr counter : UInt32) : Bytes :=
  [cmd] ++ beu32Put addr ++ beu32Put counter

@[simp] theorem length_header (cmd : UInt8) (addr counter : UInt32) :
    (header cmd addr counter).length = tmMacHeaderSize := rfl

theorem addHeader_eq (m : TinyMac) (cmd : UInt8) :
    ∃ mPacket mWrIndex, m.addHeader cmd
      = .ok { m with mPayloadSize := 0, mPacket, mWrIndex } ∧
      mWrIndex.toNat = tmMacHeaderSize ∧
      mPacket.bytes.take tmMacHeaderSize = header cmd m.mDevAddr m.mFrameCounter := by
  obtain ⟨p₁, i₁, h₁, hi₁, hp₁⟩ := append_eq m.reset [] [cmd] rfl rfl
    (by show 0 + 1 ≤ 253; decide)
  obtain ⟨p₂, i₂, h₂, hi₂, hp₂⟩ := append_eq { m.reset with mPacket := p₁, mWrIndex := i₁ } _
    (beu32Put m.mDevAddr) hi₁ hp₁ (by show 1 + 4 ≤ 253; decide)
  obtain ⟨p₃, i₃, h₃, hi₃, hp₃⟩ := append_eq { m.reset with mPacket := p₂, mWrIndex := i₂ } _
    (beu32Put m.mFrameCounter) hi₂ hp₂ (by show 1 + 4 + 4 ≤ 253; decide)
  refine ⟨p₃, i₃, ?_, hi₃, hp₃⟩
  rw [addHeader, h₁, ok_bind]
  show (append { m.reset with mPacket := p₁, mWrIndex := i₁ } (beu32Put m.mDevAddr) >>= _) = _
  rw [h₂, ok_bind]
  exact h₃

theorem addBuffer_eq (m : TinyMac) (pre data : Bytes) (hindex : m.mWrIndex.toNat = pre.length)
    (hpre : m.mPacket.bytes.take pre.length = pre) (hempty : m.mPayloadSize = 0)
    (hfit : pre.length + data.length ≤ tmMaxPacketSize) :
    ∃ mPacket mWrIndex, m.addBuffer data (UInt8.ofNat data.length)
      = .ok { m with mPayloadSize := UInt8.ofNat data.length, mPacket, mWrIndex } ∧
      mWrIndex.toNat = (pre ++ data).length ∧
      mPacket.bytes.take (pre ++ data).length = pre ++ data := by
  have hmax : tmMaxPacketSize = 253 := rfl
  obtain ⟨mPacket, mWrIndex, happend, hi, hp⟩ := append_eq m pre data hindex hpre hfit
  refine ⟨mPacket, mWrIndex, ?_, hi, hp⟩
  have hsize : (UInt8.ofNat data.length).toNat = data.length := by
    rw [UInt8.toNat_ofNat']
    omega
  have hread := readBytes_append [] data []
  rw [List.nil_append, List.append_nil, List.length_nil] at hread
  rw [addBuffer, hsize, hread, ok_bind, happend, ok_bind, hempty, UInt8.zero_add]
  rfl

/-- **The end of a frame**: the data is encrypted in its place, and the MIC is added. -/
theorem macFinish_eq (prim : Gcm.Primitives) (m : TinyMac) {hdr data : Bytes}
    (hhdr : hdr.length = tmMacHeaderSize) (hfit : data.length ≤ tmMaxPayloadSize)
    (hsize : m.mPayloadSize.toNat = data.length)
    (hindex : m.mWrIndex.toNat = (hdr ++ data).length)
    (hpacket : m.mPacket.bytes.take (hdr ++ data).length = hdr ++ data) :
    ∃ mScratch mPacket mWrIndex,
      m.macFinish prim true = .ok { m with mScratch, mPacket, mWrIndex } ∧
      mPacket.bytes.take (tmMacSize + data.length)
        = hdr ++ (Gcm.cryptAndTag prim m.mKey .encrypt iv hdr data).1
          ++ (Gcm.cryptAndTag prim m.mKey .encrypt iv hdr data).2.toList.take 4 := by
  have hmax : tmMaxPayloadSize = 240 ∧ tmMaxPacketSize = 253 ∧ tmMacSize = 13 ∧
    tmMacHeaderSize = 9 := ⟨rfl, rfl, rfl, rfl⟩
  obtain ⟨rest, hbytes⟩ : ∃ rest, m.mPacket.bytes = hdr ++ (data ++ rest) := by
    refine ⟨m.mPacket.bytes.drop (hdr ++ data).length, ?_⟩
    have hsplit := List.take_append_drop (hdr ++ data).length m.mPacket.bytes
    rw [hpacket] at hsplit
    rw [← List.append_assoc, hsplit]
  -- The header is the additional data of the encryption.
  have hadd : readBytes m.mPacket.bytes 0 tmMacHeaderSize = .ok hdr := by
    have hread := readBytes_append [] hdr (data ++ rest)
    rwa [List.nil_append, hhdr, List.length_nil, ← hbytes] at hread
  set ctx := Gcm.starts prim (Gcm.setkey prim m.mKey) .encrypt iv hdr with hctx
  obtain ⟨ctx₁, s₁, s₂, hfirst, hsecond, htake⟩ :=
    (fills_whole prim (show ctx.len = 0 from rfl) hdr data rest m.mScratch (by omega)).rest
      rfl hdr rest (by omega)
  rw [← hbytes, hhdr, boundSize] at hfirst hsecond
  have hcipher : (Gcm.update prim ctx data).2.length = data.length :=
    Gcm.length_update prim ctx (by show 0 + data.length ≤ _; omega)
  have hencrypted : readBytes s₂.bytes 0 data.length = .ok (Gcm.update prim ctx data).2 := by
    rw [readBytes_of_le (by rw [s₂.size]; omega), List.drop_zero, htake]
  have hfit₁ : tmMacHeaderSize + (Gcm.update prim ctx data).2.length ≤ tmMaxPacketSize := by omega
  have htake₁ := m.mPacket.take_put hfit₁
  have hhead : m.mPacket.bytes.take tmMacHeaderSize = hdr := by
    rw [hbytes, List.take_left' hhdr]
  rw [hhead] at htake₁
  obtain ⟨mPacket, mWrIndex, happend, -, hmic⟩ := append_eq
    { m with
      mScratch := s₂
      mPacket := m.mPacket.put tmMacHeaderSize (Gcm.update prim ctx data).2 hfit₁ }
    (hdr ++ (Gcm.update prim ctx data).2)
    ((Gcm.finish prim (Gcm.update prim ctx data).1).toList.take 4)
    (by rw [List.length_append, hcipher, ← List.length_append]; exact hindex)
    (by rw [List.length_append, hhdr]; exact htake₁)
    (by simp; omega)
  refine ⟨s₂, mPacket, mWrIndex, ?_, ?_⟩
  · have hreplace : m.replaceData s₂ true
        = .ok (m.mPacket.put tmMacHeaderSize (Gcm.update prim ctx data).2 hfit₁) := by
      rw [replaceData, if_pos rfl, hsize, hencrypted, ok_bind, Buffer.write_of_le _ hfit₁]
    rw [macFinish, hadd, ok_bind]
    simp only [hsize, ← hctx, hfirst, ok_bind, hsecond, hreplace, happend]
  · have hlength : (hdr ++ (Gcm.update prim ctx data).2
        ++ (Gcm.finish prim (Gcm.update prim ctx data).1).toList.take 4).length
        = tmMacSize + data.length := by
      rw [List.length_append, List.length_append, hhdr, hcipher, List.length_take_of_le (by simp)]
      omega
    rw [hlength] at hmic
    exact hmic

/-- The frame of some data: the header, the data as it is encrypted in one go, and the first four
    bytes of the tag. -/
def frame (prim : Gcm.Primitives) (key : Block) (addr counter : UInt32) (data : Bytes) : Bytes :=
  let hdr := header TmFrameType.dataReq.toByte addr counter
  let sealed := Gcm.cryptAndTag prim key .encrypt iv hdr data
  hdr ++ (sealed.1 ++ sealed.2.toList.take 4)

/-- **Data that fits** is sent as its frame. -/
theorem buildData_eq (prim : Gcm.Primitives) (m : TinyMac) {data : Bytes}
    (hdata : data.length ≤ tmMaxPayloadSize) :
    ∃ sent, m.buildData prim data = .ok sent ∧ sent.mPayloadSize.toNat = data.length ∧
      sent.packet = frame prim m.mKey m.mDevAddr (m.mFrameCounter + 1) data := by
  have hmax : tmMaxPayloadSize = 240 ∧ tmMaxPacketSize = 253 ∧ tmMacSize = 13 ∧
    tmMacHeaderSize = 9 := ⟨rfl, rfl, rfl, rfl⟩
  have hn : (UInt8.ofNat data.length).toNat = data.length := by
    rw [UInt8.toNat_ofNat']
    omega
  -- The header, the data, the encryption.
  set start : TinyMac := { m with mFrameCounter := m.mFrameCounter + 1 } with hstart
  set hdr := header TmFrameType.dataReq.toByte start.mDevAddr start.mFrameCounter with hhdr
  obtain ⟨p₁, i₁, hheader, hi₁, hp₁⟩ := addHeader_eq start TmFrameType.dataReq.toByte
  obtain ⟨p₂, i₂, hbuffer, hi₂, hp₂⟩ := addBuffer_eq
    { start with mPayloadSize := 0, mPacket := p₁, mWrIndex := i₁ } hdr data hi₁ hp₁ rfl
    (by rw [hhdr, length_header]; omega)
  obtain ⟨s, p, i, hfinish, hp⟩ := macFinish_eq prim
    { start with mPayloadSize := UInt8.ofNat data.length, mPacket := p₂, mWrIndex := i₂ }
    (length_header _ _ _) hdata hn hi₂ hp₂
  refine ⟨{ start with
    mScratch := s, mPacket := p, mPayloadSize := UInt8.ofNat data.length, mWrIndex := i },
    ?_, hn, ?_⟩
  · show (start.addHeader TmFrameType.dataReq.toByte >>= _) = _
    rw [hheader, ok_bind, hbuffer, ok_bind, hfinish]
  · have hsize : (UInt8.ofNat tmMacSize + UInt8.ofNat data.length).toNat
        = tmMacSize + data.length := by
      rw [UInt8.toNat_add, hn, UInt8.toNat_ofNat']
      omega
    rw [packet, getSize, hsize, hp, frame, List.append_assoc]

/-! ### Reading a frame -/

/-- **What is made of a frame** of any size: its text is processed in one go, and the tag is
    compared with the MIC. -/
theorem decrypt_frame (prim : Gcm.Primitives) (m : TinyMac) {hdr cipher mic : Bytes} {size : UInt8}
    (hhdr : hdr.length = tmMacHeaderSize) (hmic : mic.length = 4)
    (hsize : size.toNat = tmMacSize + cipher.length) :
    let ctx := Gcm.starts prim (Gcm.setkey prim m.mKey) .decrypt iv hdr
    ∃ mScratch mPayloadSize, m.decrypt prim (hdr ++ (cipher ++ mic)) size
        = .ok ((Gcm.finish prim (Gcm.update prim ctx cipher).1).toList.take 4 = mic,
            { m with mScratch, mPayloadSize }) ∧
      mPayloadSize.toNat = cipher.length ∧
      mScratch.bytes.take cipher.length = (Gcm.update prim ctx cipher).2 := by
  intro ctx
  have hmax : tmMaxPacketSize = 253 ∧ tmMacSize = 13 ∧ tmMacHeaderSize = 9 := ⟨rfl, rfl, rfl⟩
  have hbyte : size.toNat < 256 := size.toNat_lt
  have hpayload : (size - UInt8.ofNat tmMacSize).toNat = cipher.length := by
    rw [UInt8.toNat_sub, hsize, UInt8.toNat_ofNat']
    omega
  have hadd : readBytes (hdr ++ (cipher ++ mic)) 0 tmMacHeaderSize = .ok hdr := by
    have hread := readBytes_append [] hdr (cipher ++ mic)
    rwa [List.nil_append, hhdr, List.length_nil] at hread
  have hreceived : receivedMic (hdr ++ (cipher ++ mic)) size = .ok mic := by
    have hread := readBytes_append (hdr ++ cipher) mic []
    rw [List.append_nil, List.append_assoc, List.length_append, hhdr, hmic] at hread
    have hpos : size.toNat - 4 = tmMacHeaderSize + cipher.length := by omega
    rw [receivedMic, if_neg (by omega), hpos]
    exact hread
  -- Unlike the sender, the receiver leaves an empty first piece out.
  have hwhole := (fills_whole prim (show ctx.len = 0 from rfl) hdr cipher mic m.mScratch
    (by omega)).ifAny (List.length_take_of_le (boundSize_le _).1) (Nat.zero_le _)
  obtain ⟨ctx₁, s₁, s₂, hfirst, hsecond, htake⟩ := hwhole.rest rfl hdr mic (by omega)
  rw [hhdr, boundSize] at hfirst hsecond
  refine ⟨s₂, size - UInt8.ofNat tmMacSize, ?_, hpayload, htake⟩
  rw [decrypt, hadd, ok_bind]
  simp only [hpayload, hfirst, ok_bind, hsecond, hreceived, pure_eq_ok, ctx]

/-- **A frame that has been encrypted with the same key** is decrypted, and its MIC is right. -/
theorem decrypt_eq (prim : Gcm.Primitives) (m : TinyMac) {hdr data : Bytes} {size : UInt8}
    (hhdr : hdr.length = tmMacHeaderSize) (hsize : size.toNat = tmMacSize + data.length) :
    ∃ mScratch mPayloadSize, m.decrypt prim
        (hdr ++ ((Gcm.cryptAndTag prim m.mKey .encrypt iv hdr data).1
          ++ (Gcm.cryptAndTag prim m.mKey .encrypt iv hdr data).2.toList.take 4)) size
        = .ok (true, { m with mScratch, mPayloadSize }) ∧
      mPayloadSize.toNat = data.length ∧ mScratch.bytes.take data.length = data := by
  have hbyte : size.toNat < 256 := size.toNat_lt
  rw [Gcm.cryptAndTag_eq]
  set ctx := Gcm.starts prim (Gcm.setkey prim m.mKey) .encrypt iv hdr with hctx
  -- The context of the receiver differs in the mode only.
  have hreceiver : Gcm.starts prim (Gcm.setkey prim m.mKey) .decrypt iv hdr = ctx.decrypting := rfl
  have hlimit : ctx.len + data.length ≤ 0xFFFFFFFE0 := by
    show 0 + data.length ≤ _
    omega
  have hcipher := Gcm.length_update prim ctx hlimit
  have hplain := Gcm.update_decrypting prim (show ctx.mode = .encrypt from rfl) hlimit
  have hfinish : Gcm.finish prim (Gcm.update prim ctx data).1.decrypting
      = Gcm.finish prim (Gcm.update prim ctx data).1 := rfl
  obtain ⟨mScratch, mPayloadSize, hdecrypt, hn, htake⟩ := decrypt_frame prim m hhdr
    (show ((Gcm.finish prim (Gcm.update prim ctx data).1).toList.take 4).length = 4 by
      rw [List.length_take_of_le (by simp)])
    (show size.toNat = tmMacSize + (Gcm.update prim ctx data).2.length by rw [hcipher, hsize])
  rw [hreceiver, hplain, hfinish, decide_eq_true rfl] at hdecrypt
  rw [hreceiver, hplain, hcipher] at htake
  exact ⟨mScratch, mPayloadSize, hdecrypt, hn.trans hcipher, htake⟩

/-- **A frame and back.**  The packet is the command, the address, the frame counter that has been
    incremented, the data as it is encrypted in one go, and the first four bytes of the tag; any
    object with the same key takes it for right and has the data. -/
theorem decrypt_buildData (prim : Gcm.Primitives) (sender receiver : TinyMac) (key : Block)
    (addr : UInt32) (data : Bytes) (hdata : data.length ≤ 240) :
    let hdr := [TmFrameType.dataReq.toByte] ++ beu32Put addr ++ beu32Put (sender.mFrameCounter + 1)
    let sealed := Gcm.cryptAndTag prim key .encrypt iv hdr data
    ∃ sent, ((sender.setKey key).setAddress addr).buildData prim data = .ok sent ∧
      sent.packet = hdr ++ (sealed.1 ++ sealed.2.toList.take 4) ∧ sealed.1.length = data.length ∧
      sent.getSize.toNat = 13 + data.length ∧
      ∃ received,
        (receiver.setKey key).decrypt prim sent.packet sent.getSize = .ok (true, received) ∧
        received.getData = data ∧ received.getDataSize.toNat = data.length := by
  intro hdr sealed
  have hn : (UInt8.ofNat tmMacSize).toNat = 13 := rfl
  obtain ⟨sent, hbuild, hlength, hpacket⟩ :=
    buildData_eq prim ((sender.setKey key).setAddress addr) hdata
  have hsize : sent.getSize.toNat = 13 + data.length := by
    rw [getSize, UInt8.toNat_add, hn, hlength]
    omega
  obtain ⟨s, n, hdecrypt, hn, hs⟩ := decrypt_eq prim (receiver.setKey key)
    (length_header TmFrameType.dataReq.toByte addr (sender.mFrameCounter + 1))
    (show sent.getSize.toNat = tmMacSize + data.length from hsize)
  -- The MIC is the one the receiver computes, as both have the same key and the same header.
  refine ⟨sent, hbuild, hpacket, ?_, hsize, { receiver.setKey key with
    mScratch := s, mPayloadSize := n }, ?_, ?_, hn⟩
  · exact Gcm.length_update prim _ (by show 0 + data.length ≤ _; omega)
  · rw [hpacket]
    exact hdecrypt
  · show s.bytes.take n.toNat = data
    rw [hn, hs]

/-- An object with a frame counter. -/
def counting (counter : UInt32) : TinyMac where
  mScratch := ⟨List.replicate tmMaxPacketSize 0, List.length_replicate⟩
  mPacket := ⟨List.replicate tmMaxPacketSize 0, List.length_replicate⟩
  mKey := Gcm.zeroBlock
  mPayloadSize := 0
  mWrIndex := 0
  mFrameCounter := counter
  mDevAddr := 0

/-- Ten bytes, after the last frame counter of all. -/
theorem decrypt_buildData_ten : ∃ sent received,
    (((counting 0xffffffff).setKey Gcm.zeroBlock).setAddress 0x01020304).buildData
      ⟨fun _ => Gcm.zeroKeyAes, Gcm.tableMult⟩ (ascii "ten bytes.") = .ok sent ∧
    sent.packet.take tmMacHeaderSize = [3, 1, 2, 3, 4, 0, 0, 0, 0] ∧
    ((counting 7).setKey Gcm.zeroBlock).decrypt ⟨fun _ => Gcm.zeroKeyAes, Gcm.tableMult⟩ sent.packet
      sent.getSize = .ok (true, received) ∧
    received.getData = ascii "ten bytes." := by
  obtain ⟨sent, hbuild, hpacket, -, -, received, hdecrypt, hdata, -⟩ :=
    decrypt_buildData ⟨fun _ => Gcm.zeroKeyAes, Gcm.tableMult⟩ (counting 0xffffffff) (counting 7)
      Gcm.zeroBlock 0x01020304 (ascii "ten bytes.") (by decide)
  refine ⟨sent, received, hbuild, ?_, hdecrypt, hdata⟩
  rw [hpacket]
  rfl

end TinyMac

end Icl.Protocol
