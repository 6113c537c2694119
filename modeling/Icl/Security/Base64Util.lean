import Icl.Cxx.Bytes

namespace Icl.Security

open Icl.Cxx

/-!
# `Base64`

The model of `security/Base64Util.cpp`.  `Encode` makes four characters of three bytes, and pads a
last group of one or two bytes; `Decode` reads up to the first character that is none of the
alphabet.

* `decode_encode` — what has been encoded is decoded again;
* `mem_encode` — the characters of an encoded text.
-/

namespace Base64

/-- `base64_chars`. -/
def base64Chars : Bytes :=
  ascii "ABCDEFGHIJKLMNOPQRSTUVWXYZabcdefghijklmnopqrstuvwxyz0123456789+/"

/-- The four characters of `char_array_3`. -/
def encodeGroup (c0 c1 c2 : UInt8) : Bytes :=
  [(c0 &&& 0xfc) >>> 2,
    ((c0 &&& 0x03) <<< 4) + ((c1 &&& 0xf0) >>> 4),
    ((c1 &&& 0x0f) <<< 2) + ((c2 &&& 0xc0) >>> 6),
    c2 &&& 0x3f].map fun i => base64Chars.getD i.toNat 0

/-- `Base64::Encode`. -/
def encode : Bytes → Bytes
  | c0 :: c1 :: c2 :: rest => encodeGroup c0 c1 c2 ++ encode rest
  | [c0, c1] => (encodeGroup c0 c1 0).take 3 ++ ascii "="
  | [c0] => (encodeGroup c0 0 0).take 2 ++ ascii "=="
  | [] => []

/-- `is_base64`. -/
def isBase64 (c : UInt8) : Bool :=
  isdigit c || (0x41 ≤ c && c ≤ 0x5A) || (0x61 ≤ c && c ≤ 0x7A) || c == 0x2B || c == 0x2F

/-- `base64_chars.find(c)`, as an `unsigned char`: `npos` becomes 255. -/
def charIndex (c : UInt8) : UInt8 :=
  if c ∈ base64Chars then UInt8.ofNat (base64Chars.idxOf c) else 0xff

/-- The three bytes of `char_array_4`. -/
def decodeGroup (c0 c1 c2 c3 : UInt8) : Bytes :=
  [(charIndex c0 <<< 2) + ((charIndex c1 &&& 0x30) >>> 4),
    ((charIndex c1 &&& 0xf) <<< 4) + ((charIndex c2 &&& 0x3c) >>> 2),
    ((charIndex c2 &&& 0x3) <<< 6) + charIndex c3]

/-- The characters, four by four.  A last group is filled up with zeros, and gives one byte less
    than it has characters. -/
def decodeGroups : Bytes → Bytes
  | c0 :: c1 :: c2 :: c3 :: rest => decodeGroup c0 c1 c2 c3 ++ decodeGroups rest
  | [c0, c1, c2] => (decodeGroup c0 c1 c2 0).take 2
  | [c0, c1] => (decodeGroup c0 c1 0 0).take 1
  | [c0] => (decodeGroup c0 0 0 0).take 0
  | [] => []

/-- `Base64::Decode`.  `in_len` counts down from the size in 32 bits, and `in_`, which counts up, is
    an `int` too: past 2^31 - 1 it is a negative index. -/
def decode (encoded : Bytes) : Except Fault Bytes :=
  let chars := (encoded.takeWhile isBase64).take (encoded.length % 2 ^ 32)
  if chars.length < 2 ^ 31 then .ok (decodeGroups chars)
  else .error (.outOfBounds (2 ^ 64 - 2 ^ 31) encoded.length)

/-! ### Groups -/

/-- What the masks and shifts of `Encode` take out of a byte. -/
theorem byte_parts (c : UInt8) :
    ((c &&& 0xfc) >>> 2).toNat = c.toNat / 4 ∧ ((c &&& 0x03) <<< 4).toNat = c.toNat % 4 * 16 ∧
    ((c &&& 0xf0) >>> 4).toNat = c.toNat / 16 ∧ ((c &&& 0x0f) <<< 2).toNat = c.toNat % 16 * 4 ∧
    ((c &&& 0xc0) >>> 6).toNat = c.toNat / 64 ∧ (c &&& 0x3f).toNat = c.toNat % 64 := by
  have := forall_byte (p := fun c => decide (
    ((c &&& 0xfc) >>> 2).toNat = c.toNat / 4 ∧ ((c &&& 0x03) <<< 4).toNat = c.toNat % 4 * 16 ∧
    ((c &&& 0xf0) >>> 4).toNat = c.toNat / 16 ∧ ((c &&& 0x0f) <<< 2).toNat = c.toNat % 16 * 4 ∧
    ((c &&& 0xc0) >>> 6).toNat = c.toNat / 64 ∧ (c &&& 0x3f).toNat = c.toNat % 64))
    (by decide +kernel) c
  exact of_decide_eq_true this

/-- What the masks and shifts of `Decode` take out of an index. -/
theorem index_parts (c : UInt8) :
    (c <<< 2).toNat = c.toNat % 64 * 4 ∧ ((c &&& 0x30) >>> 4).toNat = c.toNat / 16 % 4 ∧
    ((c &&& 0xf) <<< 4).toNat = c.toNat % 16 * 16 ∧
    ((c &&& 0x3c) >>> 2).toNat = c.toNat / 4 % 16 ∧
    ((c &&& 0x3) <<< 6).toNat = c.toNat % 4 * 64 := by
  have := forall_byte (p := fun c => decide (
    (c <<< 2).toNat = c.toNat % 64 * 4 ∧ ((c &&& 0x30) >>> 4).toNat = c.toNat / 16 % 4 ∧
    ((c &&& 0xf) <<< 4).toNat = c.toNat % 16 * 16 ∧
    ((c &&& 0x3c) >>> 2).toNat = c.toNat / 4 % 16 ∧
    ((c &&& 0x3) <<< 6).toNat = c.toNat % 4 * 64)) (by decide +kernel) c
  exact of_decide_eq_true this

theorem nodup_base64Chars : base64Chars.Nodup := by decide +kernel

/-- The alphabet is read back. -/
theorem charIndex_char {i : UInt8} (h : i.toNat < 64) :
    isBase64 (base64Chars.getD i.toNat 0) = true ∧ charIndex (base64Chars.getD i.toNat 0) = i := by
  have hindex : i.toNat < base64Chars.length := h
  rw [List.getD_eq_getElem?_getD, List.getElem?_eq_getElem hindex, Option.getD_some]
  have halphabet : ∀ c ∈ base64Chars, isBase64 c = true := forall_mem_of_all (by decide)
  constructor
  · exact halphabet _ (List.getElem_mem hindex)
  · rw [charIndex, if_pos (List.getElem_mem hindex), nodup_base64Chars.idxOf_getElem,
      UInt8.ofNat_toNat]

/-- The four indices of three bytes. -/
theorem encodeGroup_eq (c0 c1 c2 : UInt8) : ∃ i0 i1 i2 i3 : UInt8,
    encodeGroup c0 c1 c2 = [i0, i1, i2, i3].map (fun i => base64Chars.getD i.toNat 0) ∧
    i0.toNat = c0.toNat / 4 ∧ i1.toNat = c0.toNat % 4 * 16 + c1.toNat / 16 ∧
    i2.toNat = c1.toNat % 16 * 4 + c2.toNat / 64 ∧ i3.toNat = c2.toNat % 64 := by
  obtain ⟨h₀, h₀', -, -, -, -⟩ := byte_parts c0
  obtain ⟨-, -, h₁, h₁', -, -⟩ := byte_parts c1
  obtain ⟨-, -, -, -, h₂, h₂'⟩ := byte_parts c2
  refine ⟨_, _, _, _, rfl, h₀, ?_, ?_, h₂'⟩
  · rw [UInt8.toNat_add, h₀', h₁]
    have := c1.toNat_lt
    omega
  · rw [UInt8.toNat_add, h₁', h₂]
    have := c2.toNat_lt
    omega

/-- **A group is decoded again**, and its characters are of the alphabet. -/
theorem decodeGroup_encodeGroup (c0 c1 c2 : UInt8) : ∃ d0 d1 d2 d3,
    encodeGroup c0 c1 c2 = [d0, d1, d2, d3] ∧ (∀ d ∈ [d0, d1, d2, d3], isBase64 d = true) ∧
    ∀ c3 c4, decodeGroup d0 d1 d2 d3 = [c0, c1, c2] ∧
      (decodeGroup d0 d1 d2 c4).take 2 = [c0, c1] ∧ (decodeGroup d0 d1 c3 c4).take 1 = [c0] := by
  obtain ⟨i0, i1, i2, i3, hgroup, h₀, h₁, h₂, h₃⟩ := encodeGroup_eq c0 c1 c2
  have hc₀ := c0.toNat_lt
  have hc₁ := c1.toNat_lt
  have hc₂ := c2.toNat_lt
  obtain ⟨hb₀, hi₀⟩ := charIndex_char (show i0.toNat < 64 by omega)
  obtain ⟨hb₁, hi₁⟩ := charIndex_char (show i1.toNat < 64 by omega)
  obtain ⟨hb₂, hi₂⟩ := charIndex_char (show i2.toNat < 64 by omega)
  obtain ⟨hb₃, hi₃⟩ := charIndex_char (show i3.toNat < 64 by omega)
  obtain ⟨hp₀, -, -, -, -⟩ := index_parts i0
  obtain ⟨-, hq₁, hp₁, -, -⟩ := index_parts i1
  obtain ⟨-, -, -, hq₂, hp₂⟩ := index_parts i2
  -- The bits of each byte are put together again.
  have e₀ : (i0 <<< 2) + ((i1 &&& 0x30) >>> 4) = c0 := by
    apply UInt8.toNat_inj.mp
    rw [UInt8.toNat_add, hp₀, hq₁]
    omega
  have e₁ : ((i1 &&& 0xf) <<< 4) + ((i2 &&& 0x3c) >>> 2) = c1 := by
    apply UInt8.toNat_inj.mp
    rw [UInt8.toNat_add, hp₁, hq₂]
    omega
  have e₂ : ((i2 &&& 0x3) <<< 6) + i3 = c2 := by
    apply UInt8.toNat_inj.mp
    rw [UInt8.toNat_add, hp₂]
    omega
  refine ⟨_, _, _, _, hgroup, ?_, fun c3 c4 => ?_⟩
  · simp only [List.forall_mem_cons]
    exact ⟨hb₀, hb₁, hb₂, hb₃, List.forall_mem_nil _⟩
  · simp only [decodeGroup, hi₀, hi₁, hi₂, hi₃, e₀, e₁, e₂, List.take_succ_cons, List.take_zero,
      and_self]

/-! ### Texts -/

/-- An encoded text is of the alphabet, but for the padding. -/
theorem mem_encode (bytes : Bytes) : ∀ d ∈ encode bytes, isBase64 d = true ∨ d = 0x3D := by
  have hequals : ∀ d ∈ ascii "==", d = 0x3D := forall_mem_of_all (by decide)
  fun_induction encode bytes with
  | case1 c0 c1 c2 rest ih =>
    obtain ⟨d0, d1, d2, d3, hgroup, hchars, -⟩ := decodeGroup_encodeGroup c0 c1 c2
    intro d hd
    rw [hgroup] at hd
    exact (List.mem_append.mp hd).elim (fun h => .inl (hchars d h)) (ih d)
  | case2 c0 c1 =>
    obtain ⟨d0, d1, d2, d3, hgroup, hchars, -⟩ := decodeGroup_encodeGroup c0 c1 0
    intro d hd
    rw [hgroup] at hd
    refine (List.mem_append.mp hd).imp (fun h => hchars d (List.mem_of_mem_take h)) fun h => ?_
    exact hequals d (List.mem_cons_of_mem _ h)
  | case3 c0 =>
    obtain ⟨d0, d1, d2, d3, hgroup, hchars, -⟩ := decodeGroup_encodeGroup c0 0 0
    intro d hd
    rw [hgroup] at hd
    exact (List.mem_append.mp hd).imp (fun h => hchars d (List.mem_of_mem_take h)) (hequals d)
  | case4 => simp

theorem length_encode (bytes : Bytes) : (encode bytes).length ≤ (bytes.length + 2) / 3 * 4 := by
  fun_induction encode bytes with
  | case1 c0 c1 c2 rest ih =>
    simp only [List.length_append, List.length_cons, encodeGroup, List.map_cons, List.map_nil,
      List.length_nil]
    omega
  | case2 c0 c1 => simp [encodeGroup, ascii]
  | case3 c0 => simp [encodeGroup, ascii]
  | case4 => simp

/-- The groups of an encoded text. -/
theorem decodeGroups_encode (bytes : Bytes) :
    decodeGroups ((encode bytes).takeWhile isBase64) = bytes := by
  have hpad : isBase64 0x3D = false := by decide
  fun_induction encode bytes with
  -- Three bytes are a group of four digits, and the rest follows.
  | case1 c0 c1 c2 rest ih =>
    obtain ⟨d0, d1, d2, d3, hgroup, hchars, hdecode⟩ := decodeGroup_encodeGroup c0 c1 c2
    rw [hgroup, List.takeWhile_append_of_pos hchars]
    simp only [List.cons_append, List.nil_append, decodeGroups, (hdecode 0 0).1, ih]
  -- Two bytes at the end: the padding is no digit, so three digits are left.
  | case2 c0 c1 =>
    obtain ⟨d0, d1, d2, d3, hgroup, hchars, hdecode⟩ := decodeGroup_encodeGroup c0 c1 0
    have htake : ∀ d ∈ [d0, d1, d2], isBase64 d = true := fun d hd =>
      hchars d (List.mem_of_mem_take (i := 3) hd)
    rw [hgroup]
    show decodeGroups (([d0, d1, d2] ++ [0x3D]).takeWhile isBase64) = _
    rw [List.takeWhile_append_of_pos htake, List.takeWhile_cons_of_neg (by simp [hpad])]
    exact (hdecode 0 0).2.1
  | case3 c0 =>
    obtain ⟨d0, d1, d2, d3, hgroup, hchars, hdecode⟩ := decodeGroup_encodeGroup c0 0 0
    have htake : ∀ d ∈ [d0, d1], isBase64 d = true := fun d hd =>
      hchars d (List.mem_of_mem_take (i := 2) hd)
    rw [hgroup]
    show decodeGroups (([d0, d1] ++ [0x3D, 0x3D]).takeWhile isBase64) = _
    rw [List.takeWhile_append_of_pos htake, List.takeWhile_cons_of_neg (by simp [hpad])]
    exact (hdecode 0 0).2.2
  | case4 => rfl

/-- **What has been encoded is decoded again.** -/
theorem decode_encode {bytes : Bytes} (hsize : bytes.length < 2 ^ 30) :
    decode (encode bytes) = .ok bytes := by
  have hlength := length_encode bytes
  have hprefix := (List.takeWhile_prefix isBase64 (l := encode bytes)).length_le
  have hall : ((encode bytes).takeWhile isBase64).take ((encode bytes).length % 2 ^ 32)
      = (encode bytes).takeWhile isBase64 := by
    rw [Nat.mod_eq_of_lt (by omega), List.take_of_length_le hprefix]
  rw [decode, hall, if_pos (by omega), decodeGroups_encode]

end Base64

end Icl.Security
