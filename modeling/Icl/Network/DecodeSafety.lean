import Icl.Network.TcpSocket

namespace Icl.Network

open Icl.Cxx Icl.Format

/-!
# `DecodeWsData` and the bounds of its buffer

The decoder trusts the declared length: once it has a length and sees the mask bit, it
unmasks as many bytes as the frame declares, wherever the buffer ends.  This file says
exactly which buffers it stays inside.

* `decodeLengths_eq` — the length part never leaves the buffer, and computes `lengthsOf`;
* `unmask_defined_iff` — the unmasking loop stays inside exactly when there is nothing to
  unmask or everything it has to unmask is there;
* `accessesInside_iff` — the whole decoder does exactly on the buffers `StaysInside`
  describes;
* `decodeWsData_defined_iff` — the one further buffer it is defined on is the empty one, whose
  `buf[0]` is the terminating zero.
-/

/-! ### What a buffer declares -/

/-- `buf_len`. -/
def bufLen (buf : Bytes) : Nat := buf.length % 2 ^ 32

/-- Byte `k` of the buffer, 0 past its end. -/
def byteAt (buf : Bytes) (k : Nat) : UInt8 := buf.getD k 0

/-- The opcode bits. -/
def opcodeOf (buf : Bytes) : UInt8 := byteAt buf 0 &&& 0x0F

/-- The mask bit. -/
def maskBit (buf : Bytes) : Prop := byteAt buf 1 &&& 128 ≠ 0

instance (buf : Bytes) : Decidable (maskBit buf) := inferInstanceAs (Decidable (_ ≠ _))

/-- The length of the masking key, by the mask bit. -/
def keyLen (buf : Bytes) : Nat := if maskBit buf then 4 else 0

/-- The seven length bits. -/
def len7 (buf : Bytes) : Nat := (byteAt buf 1 &&& 127).toNat

/-- The `k` bytes after the length bits, as a big-endian number. -/
def declared (k : Nat) (buf : Bytes) : Nat := beValue ((buf.drop 2).take k)

/-- The opcodes whose payload is taken out of the buffer. -/
def takesPayload (opcode : UInt8) : Prop :=
  opcode = websocketOpcodeText ∨ opcode = websocketOpcodeBinary ∨
    opcode = websocketOpcodeContinuation

instance (opcode : UInt8) : Decidable (takesPayload opcode) :=
  inferInstanceAs (Decidable (_ ∨ _ ∨ _))

/-- The lengths the decoder works with. -/
def lengthsOf (buf : Bytes) : WsLengths :=
  if bufLen buf ≥ 2 then
    if len7 buf < 126 ∧ bufLen buf ≥ keyLen buf then ⟨keyLen buf, 2 + keyLen buf, len7 buf⟩
    else if len7 buf = 126 ∧ bufLen buf ≥ 4 + keyLen buf then
      ⟨keyLen buf, 4 + keyLen buf, declared 2 buf⟩
    else if bufLen buf ≥ 10 + keyLen buf then ⟨keyLen buf, 10 + keyLen buf, declared 8 buf⟩
    else ⟨keyLen buf, 0, 0⟩
  else ⟨0, 0, 0⟩

/-- The 32-bit length is at most the length of the string. -/
theorem bufLen_le (buf : Bytes) : bufLen buf ≤ buf.length := Nat.mod_le _ _

/-- Inside the buffer an access gives the byte there. -/
theorem index_eq_byteAt {buf : Bytes} {k : Nat} (h : k < buf.length) :
    index buf k = .ok (byteAt buf k) := by
  rw [index_of_lt h, byteAt, List.getD_eq_getElem?_getD, List.getElem?_eq_getElem h,
    Option.getD_some]

/-- A 32-bit load inside the buffer is the four bytes there, least significant first. -/
theorem loadWord_eq {buf : Bytes} {k : Nat} (h : k + 3 < buf.length) :
    loadWord buf k = .ok ((byteAt buf k).toNat + (byteAt buf (k + 1)).toNat * 2 ^ 8
      + (byteAt buf (k + 2)).toNat * 2 ^ 16 + (byteAt buf (k + 3)).toNat * 2 ^ 24) := by
  simp [loadWord, index_eq_byteAt (show k < buf.length by omega),
    index_eq_byteAt (show k + 1 < buf.length by omega),
    index_eq_byteAt (show k + 2 < buf.length by omega), index_eq_byteAt h]

/-- The swap of a little-endian word is its big-endian value. -/
theorem htonl_word (b0 b1 b2 b3 : UInt8) :
    htonl (b0.toNat + b1.toNat * 2 ^ 8 + b2.toNat * 2 ^ 16 + b3.toNat * 2 ^ 24)
      = beValue [b0, b1, b2, b3] := by
  have h0 := b0.toNat_lt
  have h1 := b1.toNat_lt
  have h2 := b2.toNat_lt
  have h3 := b3.toNat_lt
  simp only [htonl, beValue, List.foldl_cons, List.foldl_nil]
  obtain ⟨w, hw⟩ : ∃ w, w = b0.toNat + b1.toNat * 2 ^ 8 + b2.toNat * 2 ^ 16 + b3.toNat * 2 ^ 24 :=
    ⟨_, rfl⟩
  have e0 : w % 2 ^ 8 = b0.toNat := by omega
  have e1 : w / 2 ^ 8 % 2 ^ 8 = b1.toNat := by omega
  have e2 : w / 2 ^ 16 % 2 ^ 8 = b2.toNat := by omega
  have e3 : w / 2 ^ 24 = b3.toNat := by omega
  rw [← hw, e0, e1, e2, e3]
  omega

/-- The two bytes of the 16-bit length. -/
private theorem take_drop_two {buf : Bytes} (h : 4 ≤ buf.length) :
    (buf.drop 2).take 2 = [byteAt buf 2, byteAt buf 3] := by
  match buf, h with
  | _ :: _ :: _ :: _ :: _, _ => rfl

/-- The eight bytes of the 64-bit length. -/
private theorem take_drop_eight {buf : Bytes} (h : 10 ≤ buf.length) :
    (buf.drop 2).take 8 = [byteAt buf 2, byteAt buf 3, byteAt buf 4, byteAt buf 5, byteAt buf 6,
      byteAt buf 7, byteAt buf 8, byteAt buf 9] := by
  match buf, h with
  | _ :: _ :: _ :: _ :: _ :: _ :: _ :: _ :: _ :: _ :: _, _ => rfl

/-- The 16-bit length is read most significant byte first. -/
theorem declared_two {buf : Bytes} (h : 4 ≤ buf.length) :
    declared 2 buf = (byteAt buf 2).toNat * 2 ^ 8 + (byteAt buf 3).toNat := by
  rw [declared, take_drop_two h]
  simp [beValue]

/-- The 64-bit length, put together from its two swapped halves. -/
theorem declared_eight {buf : Bytes} (h : 10 ≤ buf.length) :
    declared 8 buf = beValue [byteAt buf 2, byteAt buf 3, byteAt buf 4, byteAt buf 5] * 2 ^ 32
      + beValue [byteAt buf 6, byteAt buf 7, byteAt buf 8, byteAt buf 9] := by
  rw [declared, take_drop_eight h]
  simp only [beValue, List.foldl_cons, List.foldl_nil]
  ring

/-- The length part reads only bytes that are there. -/
theorem decodeLengths_eq (buf : Bytes) : decodeLengths buf = .ok (lengthsOf buf) := by
  have hle := bufLen_le buf
  simp only [decodeLengths, lengthsOf, show buf.length % 2 ^ 32 = bufLen buf from rfl]
  by_cases h2 : bufLen buf ≥ 2
  · rw [if_pos h2, if_pos h2, index_eq_byteAt (show 1 < buf.length by omega)]
    simp only [ok_bind, pure_eq_ok, show (byteAt buf 1 &&& 127).toNat = len7 buf from rfl,
      show (if byteAt buf 1 &&& 128 ≠ 0 then 4 else 0) = keyLen buf from rfl]
    -- The 7-bit form reads nothing more, the 16-bit form two bytes, the 64-bit form two words.
    split_ifs with h7 h16 h64
    · rfl
    · rw [index_eq_byteAt (show 2 < buf.length by omega),
        index_eq_byteAt (show 3 < buf.length by omega), declared_two (by omega)]
      rfl
    · rw [loadWord_eq (by omega), loadWord_eq (by omega), declared_eight (by omega)]
      simp only [ok_bind, htonl_word]
    · rfl
  · rw [if_neg h2, if_neg h2]
    rfl

/-! ### The unmasking loop -/

/-- With the key right before the payload, the loop stays inside the buffer exactly when it
    has no turn to make, or the buffer holds all it has to unmask. -/
theorem unmask_defined_iff {maskPtr headerLen : Nat} (hkey : maskPtr + 4 ≤ headerLen)
    (n i : Nat) (buf : Bytes) :
    Defined (unmask maskPtr headerLen n i buf) ↔ n = 0 ∨ headerLen + i + n ≤ buf.length := by
  induction n generalizing i buf with
  | zero => simp [unmask]
  | succ n ih =>
    rw [unmask]
    by_cases hin : i + headerLen < buf.length
    · have hmask : maskPtr + i % 4 < buf.length := by omega
      rw [index_of_lt hmask, index_of_lt hin, ok_bind, ok_bind, store_of_lt hin, ok_bind, ih,
        List.length_set]
      omega
    · have hout : ¬ headerLen + i + (n + 1) ≤ buf.length := by omega
      simp only [Nat.add_eq_zero_iff, one_ne_zero, and_false, hout, or_self, iff_false]
      cases index buf (maskPtr + i % 4) with
      | error e => simp
      | ok m => simp [index_of_le (show buf.length ≤ i + headerLen by omega)]

/-- Unmasking changes neither the length of the buffer nor its first byte. -/
theorem unmask_frame {maskPtr headerLen : Nat} (hpos : 0 < headerLen) {n i : Nat}
    {buf buf' : Bytes} (h : unmask maskPtr headerLen n i buf = .ok buf') :
    buf'.length = buf.length ∧ buf'[0]? = buf[0]? := by
  induction n generalizing i buf with
  | zero => cases h; exact ⟨rfl, rfl⟩
  | succ n ih =>
    rw [unmask] at h
    obtain ⟨m, _, h⟩ := bind_eq_ok.mp h
    obtain ⟨b, _, h⟩ := bind_eq_ok.mp h
    obtain ⟨buf₁, hstore, h⟩ := bind_eq_ok.mp h
    obtain ⟨hlen, hfirst⟩ := ih h
    rw [store] at hstore
    split_ifs at hstore
    cases hstore
    rw [List.length_set] at hlen
    rw [List.getElem?_set_ne (by omega)] at hfirst
    exact ⟨hlen, hfirst⟩

/-! ### The whole decoder -/

/-- Taking the payload needs it to start inside the buffer. -/
theorem newPayload_defined_iff (l : WsLengths) (opcode : UInt8) (buf payload : Bytes) :
    Defined (newPayload l opcode buf payload) ↔
      (takesPayload opcode → l.headerLen ≤ buf.length) := by
  rw [newPayload, takesPayload, ← defined_substr buf l.headerLen l.dataLen, ← or_assoc]
  split_ifs with hfirst hcont
  · simp [hfirst]
  · cases substr buf l.headerLen l.dataLen <;> simp [hcont]
  · simp [hfirst, hcont]

/-- The first byte is the one the other accesses would read there. -/
theorem firstByte_eq (buf : Bytes) : firstByte buf = byteAt buf 0 := rfl

/-- The payload part needs a payload that starts inside the buffer if it takes one out. -/
theorem takePayload_defined_iff (l : WsLengths) (buf payload : Bytes) :
    Defined (takePayload l buf payload) ↔
      (takesPayload (opcodeOf buf) → l.headerLen ≤ buf.length) := by
  rw [takePayload, firstByte_eq, ← opcodeOf, ← newPayload_defined_iff l _ _ payload]
  by_cases hping : opcodeOf buf = websocketOpcodePing
  · simp [hping, newPayload, websocketOpcodeText, websocketOpcodeBinary,
      websocketOpcodeContinuation, websocketOpcodePing]
  by_cases hclose : opcodeOf buf = websocketOpcodeConnectionClose
  · simp [hclose, newPayload, websocketOpcodeText, websocketOpcodeBinary,
      websocketOpcodeContinuation, websocketOpcodeConnectionClose, websocketOpcodePing]
  simp [hping, hclose]

/-- With a key, either nothing was decoded or the header ends with the key. -/
theorem lengthsOf_mask {buf : Bytes} (h : 0 < (lengthsOf buf).maskLen) :
    (lengthsOf buf).maskLen = 4 ∧
      ((lengthsOf buf).headerLen = 0 ∧ (lengthsOf buf).dataLen = 0 ∨
        6 ≤ (lengthsOf buf).headerLen) := by
  revert h
  unfold lengthsOf keyLen
  split_ifs <;> simp

/-- The opcode depends on the first byte only. -/
theorem opcodeOf_congr {buf buf' : Bytes} (h : buf'[0]? = buf[0]?) :
    opcodeOf buf' = opcodeOf buf := by
  simp [opcodeOf, byteAt, List.getD_eq_getElem?_getD, h]

/-- Unmasking a frame stays inside the buffer when the declared payload is there. -/
theorem unmaskFrame_defined_iff (buf : Bytes) :
    Defined (unmaskFrame (lengthsOf buf) buf) ↔
      (0 < (lengthsOf buf).maskLen → (lengthsOf buf).dataLen = 0 ∨
        (lengthsOf buf).headerLen + (lengthsOf buf).dataLen ≤ buf.length) := by
  rw [unmaskFrame]
  split_ifs with hmask
  · obtain ⟨hmaskLen, ⟨hheader, hdata⟩ | hheader⟩ := lengthsOf_mask hmask
    · simp [hdata, unmask]
    · rw [unmask_defined_iff (by omega), Nat.add_zero]
      simp [hmask]
  · simp [hmask]

/-- Unmasking a frame changes neither the length of the buffer nor its first byte. -/
theorem unmaskFrame_frame {buf buf' : Bytes} (h : unmaskFrame (lengthsOf buf) buf = .ok buf') :
    buf'.length = buf.length ∧ buf'[0]? = buf[0]? := by
  rw [unmaskFrame] at h
  split_ifs at h with hmask
  · obtain ⟨-, ⟨hheader, hdata⟩ | hheader⟩ := lengthsOf_mask hmask
    · rw [hdata, unmask] at h
      cases h
      exact ⟨rfl, rfl⟩
    · exact unmask_frame (by omega) h
  · cases h
    exact ⟨rfl, rfl⟩

/-- The decoder stays inside the buffer when its two parts that depend on the declared
    length do. -/
theorem decodeWsData_defined_iff_parts (buf payload : Bytes) :
    Defined (decodeWsData buf payload) ↔
      Defined (unmaskFrame (lengthsOf buf) buf) ∧
        (takesPayload (opcodeOf buf) → (lengthsOf buf).headerLen ≤ buf.length) := by
  rw [decodeWsData, decodeLengths_eq, ok_bind, defined_bind]
  cases hunmask : unmaskFrame (lengthsOf buf) buf with
  | error e => simp
  | ok buf' =>
    obtain ⟨hlen, hfirst⟩ := unmaskFrame_frame hunmask
    have htake := takePayload_defined_iff (lengthsOf buf) buf' payload
    rw [opcodeOf_congr hfirst, hlen] at htake
    simp [← htake]

/-- Every index the decoder uses is below the size of its buffer, and `substr` starts inside:
    no access ends in a fault, and `buf[0]`, which is read of every buffer, is a byte of it. -/
def AccessesInside (buf payload : Bytes) : Prop :=
  Defined (decodeWsData buf payload) ∧ 0 < buf.length

/-- When the decoder stays inside its buffer: there is a first byte and, if the mask bit is
    set and the length field was received, the header, the key and the declared payload are
    all there.  An empty masked frame of an opcode whose payload is not taken needs no more
    than its length field. -/
def StaysInside (buf : Bytes) : Prop :=
  buf ≠ [] ∧ (maskBit buf →
    (len7 buf < 126 → 4 ≤ bufLen buf →
      6 + len7 buf ≤ buf.length ∨ len7 buf = 0 ∧ ¬ takesPayload (opcodeOf buf)) ∧
    (len7 buf = 126 → 8 ≤ bufLen buf → 8 + declared 2 buf ≤ buf.length) ∧
    (len7 buf = 127 → 14 ≤ bufLen buf → 14 + declared 8 buf ≤ buf.length))

instance (buf : Bytes) : Decidable (StaysInside buf) :=
  inferInstanceAs (Decidable (_ ∧ (_ → _)))

/-- The 7-bit length is at most 127. -/
theorem len7_le (buf : Bytes) : len7 buf ≤ 127 := by
  rw [len7, UInt8.toNat_and]
  exact Nat.and_le_right

/-- **Bounds of the decoder.**  `DecodeWsData` accesses only bytes of its buffer, and calls
    `substr` from inside it, exactly when the buffer `StaysInside`. -/
theorem accessesInside_iff (buf payload : Bytes) :
    AccessesInside buf payload ↔ StaysInside buf := by
  have hbuf := bufLen_le buf
  have hlen7 := len7_le buf
  rw [AccessesInside, decodeWsData_defined_iff_parts, unmaskFrame_defined_iff, StaysInside,
    List.length_pos_iff, and_comm]
  by_cases hne : buf = []
  · simp [hne]
  by_cases hmask : maskBit buf
  · -- One case per length form; `takesPayload` only matters for the 7-bit form.
    have hkey : keyLen buf = 4 := if_pos hmask
    by_cases htake : takesPayload (opcodeOf buf) <;>
      simp only [lengthsOf, hkey, ne_eq, hne, not_false_eq_true, true_and, hmask, forall_const,
        htake, not_true_eq_false, and_false, or_false, and_true, false_imp_iff] <;>
      split_ifs <;> simp <;> omega
  · have hkey : keyLen buf = 0 := if_neg hmask
    simp only [lengthsOf, hkey, ne_eq, hne, not_false_eq_true, true_and, hmask, false_imp_iff,
      and_true]
    split_ifs with h2 h7 h16 h64 <;> simp <;> omega

/-- A masked frame that declares five bytes of payload, received up to its second key byte:
    the decoder goes on to unmask byte 6 of a buffer of 4. -/
theorem not_defined_truncated_frame :
    ¬ Defined (decodeWsData [0x81, 0x85, 0x01, 0x02] []) := by
  have h : decodeWsData [0x81, 0x85, 0x01, 0x02] [] = .error (.outOfBounds 6 4) := by decide
  rw [h]
  exact not_defined_error _

/-! ### The empty buffer -/

/-- Of an empty buffer the decoder makes a partial fragment without a byte. -/
theorem decodeWsData_nil (payload : Bytes) :
    decodeWsData [] payload = .ok (.wsPartial, [], payload) := by
  have hlengths : decodeLengths [] = .ok ⟨0, 0, 0⟩ := rfl
  have hpayload : newPayload ⟨0, 0, 0⟩ websocketOpcodeContinuation [] payload = .ok payload := by
    simp [newPayload, websocketOpcodeText, websocketOpcodeBinary, websocketOpcodeContinuation,
      substr]
  rw [decodeWsData, hlengths, ok_bind, unmaskFrame, if_neg (lt_irrefl 0), ok_bind, takePayload,
    show firstByte [] &&& 0x0F = websocketOpcodeContinuation from rfl]
  rw [if_neg (by decide), if_neg (by decide), hpayload]
  rfl

/-- The decoder is defined on the buffers it stays inside, and on the empty one. -/
theorem decodeWsData_defined_iff (buf payload : Bytes) :
    Defined (decodeWsData buf payload) ↔ buf = [] ∨ StaysInside buf := by
  by_cases hne : buf = []
  · subst hne
    rw [decodeWsData_nil]
    simp
  · rw [← accessesInside_iff buf payload, AccessesInside]
    simp [hne, List.length_pos_iff]

end Icl.Network
