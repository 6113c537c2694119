import Icl.Network.DecodeSafety

namespace Icl.Network

open Icl.Cxx Icl.Format

/-!
# `BuildWsFrame`, `DecodeWsData` and the frame format

* `buildWsFrame_eq_encode` — the writer produces the format's bytes of an unmasked final
  frame;
* `decodeWsData_encode` — given a whole frame in a buffer of its own, the decoder returns
  the frame's payload: this is the one lemma about the decoder that the results on whole
  messages use;
* `decodeAll_fragments` — the successive results over the fragments of a message.
-/

/-! ### The writer -/

/-- The writer's header is the format's, for the sizes it can hold. -/
theorem buildWsFrame_eq_encode (opcode : WsOpcode) {data : Bytes} (h : data.length < 2 ^ 32) :
    buildWsFrame opcode.code data = WsFrame.encode ⟨true, opcode, none, data⟩ := by
  have hmod : data.length % 2 ^ 32 = data.length := Nat.mod_eq_of_lt h
  have hfirst : (0x80 : UInt8) + (opcode.code &&& 0x0F) = 0x80 + opcode.code := by
    cases opcode <;> decide
  have hle : data.length ≤ 0xFFFF ↔ data.length < 0x10000 := by omega
  simp only [buildWsFrame, hmod, hfirst, WsFrame.encode, WsFrame.header, WsFrame.keyBytes,
    WsFrame.maskedData, WsFrame.length7, WsFrame.extendedLength, hle, Option.isSome_none,
    Option.elim_none, Bool.false_eq_true, if_true, if_false, List.append_nil]
  -- One case per length form.
  split_ifs with h7 h16
  · simp [byteOf]
  · simp [byteOf, bigEndian]
  · -- The four high bytes of the 64-bit form are zero below 2^32.
    have hzero : ∀ k, 4 ≤ k → data.length / 256 ^ k = 0 := fun k hk =>
      Nat.div_eq_of_lt (lt_of_lt_of_le h (Nat.pow_le_pow_right (show 0 < 256 by norm_num) hk))
    simp only [byteOf, bigEndian, hzero 4 le_rfl, hzero 5, hzero 6, hzero 7, Nat.reduceLeDiff]
    norm_num
    exact ⟨rfl, rfl⟩

/-! ### The header of a frame, read back -/

section Header

variable (f : WsFrame)

/-- The lengths the decoder should find in a frame. -/
def frameLengths : WsLengths := ⟨f.keyBytes.length, f.header.length, f.data.length⟩

/-- The 7-bit length leaves the mask bit alone. -/
theorem length7_lt (n : Nat) : WsFrame.length7 n < 128 := by
  rw [WsFrame.length7]
  split_ifs <;> omega

/-- The second byte gives back the length and the mask bit it was made of. -/
private theorem length_bits : ∀ n < 128, ∀ mask : Bool,
    (((if mask then 0x80 else 0) + UInt8.ofNat n : UInt8) &&& 127).toNat = n ∧
      (((if mask then 0x80 else 0) + UInt8.ofNat n : UInt8) &&& 128 ≠ 0 ↔ mask = true) := by
  decide

/-- The first byte gives back the opcode and the FIN bit it was made of. -/
private theorem first_bits : ∀ fin : Bool, ∀ opcode : WsOpcode,
    ((if fin then 0x80 else 0) + opcode.code) &&& 0x0F = opcode.code ∧
      (((if fin then 0x80 else 0) + opcode.code) &&& 0x80 == 0x80) = fin := by
  rintro (_ | _) (_ | _ | _ | _ | _ | _) <;> decide

/-- The decoder reads the opcode of the frame. -/
theorem opcodeOf_encode : opcodeOf f.encode = f.opcode.code := (first_bits f.fin f.opcode).1

/-- It reads the FIN bit. -/
theorem finBit_encode : (byteAt f.encode 0 &&& 0x80 == 0x80) = f.fin :=
  (first_bits f.fin f.opcode).2

/-- It reads the 7-bit length. -/
theorem len7_encode : len7 f.encode = WsFrame.length7 f.data.length :=
  (length_bits _ (length7_lt _) f.mask.isSome).1

/-- It reads whether there is a masking key. -/
theorem maskBit_encode : maskBit f.encode ↔ f.mask.isSome = true :=
  (length_bits _ (length7_lt _) f.mask.isSome).2

/-- And it reckons with the length of this key. -/
theorem keyLen_encode : keyLen f.encode = f.keyBytes.length := by
  simp only [keyLen, maskBit_encode]
  rcases f with ⟨_, _, _ | key, _⟩ <;> rfl

/-- The extended length is what follows the second byte. -/
theorem declared_encode {k : Nat} (hk : (WsFrame.extendedLength f.data.length).length = k) :
    declared k f.encode = beValue (WsFrame.extendedLength f.data.length) := by
  subst hk
  simp [declared, WsFrame.encode, WsFrame.header]

/-- The decoder finds the three lengths of a whole frame. -/
theorem lengthsOf_encode (h : f.encode.length < 2 ^ 32) : lengthsOf f.encode = frameLengths f := by
  have hbuf : bufLen f.encode = f.encode.length := Nat.mod_eq_of_lt h
  have hlen : f.encode.length
      = 2 + (WsFrame.extendedLength f.data.length).length + f.keyBytes.length + f.data.length := by
    simp [WsFrame.encode, WsFrame.header]; omega
  have hheader : f.header.length
      = 2 + (WsFrame.extendedLength f.data.length).length + f.keyBytes.length := by
    simp [WsFrame.header]; omega
  simp only [lengthsOf, frameLengths, hbuf, len7_encode, keyLen_encode, WsFrame.length7]
  rw [if_pos (by omega)]
  -- The three forms of the length.
  by_cases h7 : f.data.length < 126
  · have hext : WsFrame.extendedLength f.data.length = [] := if_pos h7
    rw [hext, List.length_nil] at hlen hheader
    rw [if_pos h7, if_pos ⟨h7, by omega⟩, hheader]
  by_cases h16 : f.data.length < 0x10000
  · have hext : WsFrame.extendedLength f.data.length = bigEndian 2 f.data.length := by
      rw [WsFrame.extendedLength, if_neg h7, if_pos h16]
    have hdeclared : declared 2 f.encode = f.data.length := by
      rw [declared_encode f (by rw [hext, length_bigEndian]), hext, beValue_bigEndian (by omega)]
    rw [hext, length_bigEndian] at hlen hheader
    rw [if_neg h7, if_pos h16, if_neg (by omega), if_pos ⟨rfl, by omega⟩, hdeclared, hheader]
  · have hext : WsFrame.extendedLength f.data.length = bigEndian 8 f.data.length := by
      rw [WsFrame.extendedLength, if_neg h7, if_neg h16]
    have hdeclared : declared 8 f.encode = f.data.length := by
      rw [declared_encode f (by rw [hext, length_bigEndian]), hext, beValue_bigEndian (by omega)]
    rw [hext, length_bigEndian] at hlen hheader
    rw [if_neg h7, if_neg h16, if_neg (by omega), if_neg (by omega), if_pos (by omega), hdeclared,
      hheader]

end Header

/-! ### Unmasking -/

/-- From position `i` on, the loop applies the key to the rest of the buffer. -/
theorem unmask_append (key : MaskKey) {maskPtr headerLen i : Nat} {pre : Bytes}
    (hpre : pre.length = headerLen + i) (hmask : maskPtr + 4 ≤ headerLen)
    (hkey : ∀ j < 4, pre[maskPtr + j]? = key.bytes[j]?) (data : Bytes) :
    unmask maskPtr headerLen data.length i (pre ++ data) = .ok (pre ++ key.apply i data) := by
  -- On the data that is left; what has been unmasked joins the part before it.
  induction data generalizing i pre with
  | nil => rfl
  | cons b bs ih =>
    have hmod : i % 4 < 4 := Nat.mod_lt _ (by norm_num)
    have hm : index (pre ++ b :: bs) (maskPtr + i % 4) = .ok (key.byte i) := by
      have hlt : maskPtr + i % 4 < pre.length := by omega
      rw [index_of_lt (by simp; omega), List.getElem_append_left hlt]
      have := hkey (i % 4) hmod
      rw [List.getElem?_eq_getElem hlt, List.getElem?_eq_getElem (by simpa using hmod)] at this
      exact congrArg Except.ok (Option.some.inj this)
    have hb : index (pre ++ b :: bs) (i + headerLen) = .ok b := by
      rw [index_of_lt (by simp; omega)]
      simp [hpre, Nat.add_comm]
    have hstore : store (pre ++ b :: bs) (i + headerLen) (b ^^^ key.byte i)
        = .ok ((pre ++ [b ^^^ key.byte i]) ++ bs) := by
      rw [store_of_lt (by simp; omega)]
      simp [hpre, Nat.add_comm]
    rw [List.length_cons, unmask, hm, ok_bind, hb, ok_bind, hstore, ok_bind,
      ih (by simp; omega) (fun j hj => by
        rw [List.getElem?_append_left (by omega)]; exact hkey j hj)]
    simp [MaskKey.apply]

/-- Unmasking a whole frame leaves its header and its payload in the clear. -/
theorem unmaskFrame_encode (f : WsFrame) :
    unmaskFrame (frameLengths f) f.encode = .ok (f.header ++ f.data) := by
  rcases hmask : f.mask with _ | key
  · simp [unmaskFrame, frameLengths, WsFrame.keyBytes, WsFrame.encode, WsFrame.maskedData, hmask]
  · obtain ⟨pre, hheader⟩ : ∃ pre, f.header = pre ++ key.bytes :=
      ⟨_, by rw [WsFrame.header, WsFrame.keyBytes, hmask, Option.elim_some]⟩
    have hlen : f.header.length = pre.length + 4 := by simp [hheader]
    have hkey : ∀ j < 4, f.header[pre.length + j]? = key.bytes[j]? := by
      intro j _
      rw [hheader, List.getElem?_append_right (by omega), Nat.add_sub_cancel_left]
    have hloop := unmask_append key (Nat.add_zero _).symm hlen.ge hkey (key.apply 0 f.data)
    rw [MaskKey.length_apply, MaskKey.apply_apply] at hloop
    simp only [unmaskFrame, frameLengths, WsFrame.keyBytes, WsFrame.encode, WsFrame.maskedData,
      hmask, Option.elim_some, MaskKey.length_bytes, hlen, Nat.add_sub_cancel]
    rw [hlen] at hloop
    rw [if_pos (by norm_num), hloop]

/-! ### Decoding a whole frame -/

/-- The result the decoder gives for a frame. -/
def frameResult (f : WsFrame) : WsResult :=
  match f.opcode with
  | .ping => .wsSendPong
  | .close => .wsClose
  | _ => if f.fin then .wsData else .wsPartial

/-- What becomes of the payload collected so far. -/
def framePayload (f : WsFrame) (payload : Bytes) : Bytes :=
  match f.opcode with
  | .text | .binary => f.data
  | .continuation => payload ++ f.data
  | _ => payload

/-- **Decoding a whole frame.**  Given the bytes of one frame and nothing else, the decoder
    finds its payload, masked or not, in each of the three length forms. -/
theorem decodeWsData_encode (f : WsFrame) (h : f.encode.length < 2 ^ 32) (payload : Bytes) :
    decodeWsData f.encode payload
      = .ok (frameResult f, f.header ++ f.data, framePayload f payload) := by
  rw [decodeWsData, decodeLengths_eq, ok_bind, lengthsOf_encode f h, unmaskFrame_encode, ok_bind]
  have hfirst : firstByte (f.header ++ f.data) = byteAt f.encode 0 := rfl
  have hdata : substr (f.header ++ f.data) (frameLengths f).headerLen (frameLengths f).dataLen
      = .ok f.data := by
    rw [frameLengths, substr_of_le (by simp)]
    simp
  rw [takePayload, hfirst, finBit_encode,
    show byteAt f.encode 0 &&& 0x0F = f.opcode.code from opcodeOf_encode f]
  simp only [newPayload, hdata, frameResult, framePayload]
  cases f.opcode <;> rfl

/-! ### Messages -/

/-- Successive calls of `DecodeWsData`, one buffer each, on one payload. -/
def decodeAll : List Bytes → Bytes → Except Fault (List WsResult × Bytes)
  | [], payload => .ok ([], payload)
  | buf :: bufs, payload => do
    let r ← decodeWsData buf payload
    let rest ← decodeAll bufs r.2.2
    return (r.1 :: rest.1, rest.2)

/-- The frames of a message cut into fragments, each with or without a key: the first has
    the message's opcode, the others are continuations, the last one has the FIN bit. -/
def fragmentFrames (opcode : WsOpcode) : List (Option MaskKey × Bytes) → List WsFrame
  | [] => []
  | [(mask, data)] => [⟨true, opcode, mask, data⟩]
  | (mask, data) :: rest => ⟨false, opcode, mask, data⟩ :: fragmentFrames .continuation rest

/-- A fragment that is not the last one has its FIN bit clear; those behind it are continuations. -/
theorem fragmentFrames_cons (opcode : WsOpcode) (mask : Option MaskKey) (data : Bytes)
    (second : Option MaskKey × Bytes) (rest : List (Option MaskKey × Bytes)) :
    fragmentFrames opcode ((mask, data) :: second :: rest)
      = ⟨false, opcode, mask, data⟩ :: fragmentFrames .continuation (second :: rest) := rfl

/-- The fragments after the first one are added to the payload. -/
theorem decodeAll_continuation (fragments : List (Option MaskKey × Bytes)) (hne : fragments ≠ [])
    (hlen : ∀ f ∈ fragmentFrames .continuation fragments, f.encode.length < 2 ^ 32)
    (payload : Bytes) :
    decodeAll ((fragmentFrames .continuation fragments).map WsFrame.encode) payload
      = .ok (List.replicate (fragments.length - 1) .wsPartial ++ [.wsData],
          payload ++ (fragments.map Prod.snd).flatten) := by
  induction fragments generalizing payload with
  | nil => exact absurd rfl hne
  | cons fragment rest ih =>
    obtain ⟨mask, data⟩ := fragment
    cases rest with
    | nil =>
      simp only [fragmentFrames, List.mem_singleton, forall_eq] at hlen
      simp [fragmentFrames, decodeAll, decodeWsData_encode _ hlen, frameResult, framePayload]
    | cons second rest =>
      rw [fragmentFrames_cons, List.forall_mem_cons] at hlen
      rw [fragmentFrames_cons, List.map_cons, decodeAll, decodeWsData_encode _ hlen.1, ok_bind,
        ih (by simp) hlen.2]
      simp [frameResult, framePayload, List.replicate_succ]

/-- A text or binary message, in one or more fragments: all results but the last say that
    the message is partial, and the payload is the message. -/
theorem decodeAll_fragments {opcode : WsOpcode} (hop : opcode = .text ∨ opcode = .binary)
    {fragments : List (Option MaskKey × Bytes)} (hne : fragments ≠ [])
    (hlen : ∀ f ∈ fragmentFrames opcode fragments, f.encode.length < 2 ^ 32) (payload : Bytes) :
    decodeAll ((fragmentFrames opcode fragments).map WsFrame.encode) payload
      = .ok (List.replicate (fragments.length - 1) .wsPartial ++ [.wsData],
          (fragments.map Prod.snd).flatten) := by
  obtain ⟨⟨mask, data⟩, rest, rfl⟩ := List.exists_cons_of_ne_nil hne
  cases rest with
  | nil =>
    simp only [fragmentFrames, List.mem_singleton, forall_eq] at hlen
    rcases hop with rfl | rfl <;>
      simp [fragmentFrames, decodeAll, decodeWsData_encode _ hlen, frameResult, framePayload]
  | cons second rest =>
    rw [fragmentFrames_cons, List.forall_mem_cons] at hlen
    rw [fragmentFrames_cons, List.map_cons, decodeAll, decodeWsData_encode _ hlen.1, ok_bind,
      decodeAll_continuation _ (by simp) hlen.2]
    rcases hop with rfl | rfl <;> simp [frameResult, framePayload, List.replicate_succ]

/-- **WebSocket framing round trip.**  A text or binary message comes back from the decoder,
    both when `BuildWsFrame` wrote it and when a sender cut it into fragments of its choice,
    each masked or not. -/
theorem wsFraming_round_trip {opcode : WsOpcode} (hop : opcode = .text ∨ opcode = .binary)
    (payload : Bytes) :
    (∀ data : Bytes, (buildWsFrame opcode.code data).length < 2 ^ 32 →
      decodeWsData (buildWsFrame opcode.code data) payload
        = .ok (.wsData, buildWsFrame opcode.code data, data)) ∧
    (∀ fragments : List (Option MaskKey × Bytes), fragments ≠ [] →
      (∀ f ∈ fragmentFrames opcode fragments, f.encode.length < 2 ^ 32) →
      decodeAll ((fragmentFrames opcode fragments).map WsFrame.encode) payload
        = .ok (List.replicate (fragments.length - 1) .wsPartial ++ [.wsData],
            (fragments.map Prod.snd).flatten)) := by
  refine ⟨fun data hlen => ?_, fun fragments hne hlen => decodeAll_fragments hop hne hlen payload⟩
  have hdata : data.length < 2 ^ 32 := by
    rw [buildWsFrame, List.length_append] at hlen
    omega
  rw [buildWsFrame_eq_encode opcode hdata] at hlen ⊢
  rw [decodeWsData_encode _ hlen]
  rcases hop with rfl | rfl <;> rfl

/-- A two-byte message, in one frame and in two fragments of which the second is masked. -/
theorem wsFraming_round_trip_hi :
    decodeWsData (buildWsFrame WsOpcode.text.code [0x68, 0x69]) [0x2A]
        = .ok (.wsData, [0x81, 0x02, 0x68, 0x69], [0x68, 0x69]) ∧
      decodeAll ((fragmentFrames .text [(none, [0x68]), (some ⟨1, 2, 3, 4⟩, [0x69])]).map
        WsFrame.encode) [] = .ok ([.wsPartial, .wsData], [0x68, 0x69]) :=
  have htext : WsOpcode.text = .text ∨ WsOpcode.text = .binary := .inl rfl
  ⟨(wsFraming_round_trip htext [0x2A]).1 [0x68, 0x69] (by decide),
    (wsFraming_round_trip htext []).2 [(none, [0x68]), (some ⟨1, 2, 3, 4⟩, [0x69])] (by decide)
      (by decide)⟩

end Icl.Network
