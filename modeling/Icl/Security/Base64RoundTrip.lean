import Icl.Format.Rfc4648
import Icl.Security.Base64Loop

namespace Icl.Security

open Icl.Cxx Icl.Format

/-!
# `Base64`, and RFC 4648

* `encode_eq_rfc` — `Encode` is the encoding of RFC 4648;
* `isText_encode` — how long a text is, and where its padding stands;
* `round_trip` — what `Decode` makes of what `Encode` has made.
-/

namespace Base64

/-! ### RFC 4648 -/

/-- The alphabet. -/
theorem charOf_eq_digit {k : UInt8} (hk : k.toNat < 64) : charOf k = Rfc4648.digit k.toNat := by
  have halphabet := forall_byte (p := fun k => decide (k.toNat < 64 →
    charOf k = Rfc4648.digit k.toNat)) (by decide +kernel) k
  exact of_decide_eq_true halphabet hk

/-- The four characters of three bytes. -/
theorem encodeGroup_eq_digits (c0 c1 c2 : UInt8) :
    encodeGroup c0 c1 c2
      = [c0.toNat / 4, c0.toNat % 4 * 16 + c1.toNat / 16, c1.toNat % 16 * 4 + c2.toNat / 64,
          c2.toNat % 64].map Rfc4648.digit := by
  obtain ⟨i0, i1, i2, i3, hgroup, h₀, h₁, h₂, h₃⟩ := encodeGroup_eq c0 c1 c2
  have hc₀ := c0.toNat_lt
  have hc₁ := c1.toNat_lt
  have hc₂ := c2.toNat_lt
  have hlt : ∀ i ∈ [i0, i1, i2, i3], i.toNat < 64 := by
    simp only [List.forall_mem_cons, List.not_mem_nil, false_implies, implies_true, and_true]
    omega
  have hdigits : [i0, i1, i2, i3].map charOf
      = ([i0, i1, i2, i3].map UInt8.toNat).map Rfc4648.digit := by
    rw [List.map_map]
    exact List.map_congr_left fun i hi => charOf_eq_digit (hlt i hi)
  rw [hgroup, ← h₀, ← h₁, ← h₂, ← h₃]
  exact hdigits

/-- **The encoding of RFC 4648.** -/
theorem encode_eq_rfc (bytes : Bytes) : encode bytes = Rfc4648.encode bytes := by
  fun_induction encode bytes with
  | case1 c0 c1 c2 rest ih => rw [Rfc4648.encode_three, encodeGroup_eq_digits, ih]
  | case2 c0 c1 =>
    rw [Rfc4648.encode_two, encodeGroup_eq_digits]
    rfl
  | case3 c0 =>
    rw [Rfc4648.encode_one, encodeGroup_eq_digits]
    rfl
  | case4 => rfl

/-! ### What a text looks like -/

/-- A text of `n` bytes: characters of the alphabet, and then the padding. -/
structure IsText (n : Nat) (text : Bytes) : Prop where
  length_eq : text.length = 4 * ((n + 2) / 3)
  shape : ∃ chars, (∀ c ∈ chars, c ∈ base64Chars) ∧
    text = chars ++ List.replicate ((3 - n % 3) % 3) 0x3D

theorem mem_encodeGroup {c0 c1 c2 c : UInt8} (hc : c ∈ encodeGroup c0 c1 c2) :
    c ∈ base64Chars := by
  obtain ⟨charArray4, -, -, hlt, hgroup⟩ := fourOfThree_eq c0 c1 c2
  rw [← hgroup] at hc
  obtain ⟨k, hk, rfl⟩ := List.mem_map.mp hc
  have hindex : k.toNat < base64Chars.length := hlt k hk
  rw [charOf, List.getD_eq_getElem?_getD, List.getElem?_eq_getElem hindex, Option.getD_some]
  exact List.getElem_mem hindex

theorem isText_encode (bytes : Bytes) : IsText bytes.length (encode bytes) := by
  fun_induction encode bytes with
  -- A whole group changes neither the remainder nor the padding.
  | case1 c0 c1 c2 rest ih =>
    obtain ⟨chars, hchars, htext⟩ := ih.shape
    have hmod : (c0 :: c1 :: c2 :: rest).length % 3 = rest.length % 3 := by
      simp only [List.length_cons]
      omega
    constructor
    · rw [List.length_append, ih.length_eq, show (encodeGroup c0 c1 c2).length = 4 from rfl]
      simp only [List.length_cons]
      omega
    · refine ⟨encodeGroup c0 c1 c2 ++ chars, fun c hc => ?_, ?_⟩
      · exact (List.mem_append.mp hc).elim mem_encodeGroup (hchars c)
      · rw [hmod, List.append_assoc, ← htext]
  | case2 c0 c1 =>
    exact ⟨by simp [encodeGroup, ascii], _,
      fun c hc => mem_encodeGroup (List.mem_of_mem_take hc), rfl⟩
  | case3 c0 =>
    exact ⟨by simp [encodeGroup, ascii], _,
      fun c hc => mem_encodeGroup (List.mem_of_mem_take hc), rfl⟩
  | case4 => exact ⟨rfl, [], fun c hc => absurd hc List.not_mem_nil, rfl⟩

/-! ### There and back -/

/-- **Every string of less than 2^30 bytes is encoded as RFC 4648 says, and decoded again**,
    whatever the arrays begin with. -/
theorem round_trip (garbage3 : Buffer 3) (garbage4 : Buffer 4) {bytes : Bytes}
    (hlen : bytes.length < 2 ^ 30) :
    ∃ text, encodeString garbage3 bytes = .ok text ∧ decodeString garbage4 text = .ok bytes ∧
      IsText bytes.length text ∧ text = Rfc4648.encode bytes := by
  have htext := isText_encode bytes
  have hshort : (encode bytes).length < 2 ^ 31 := by
    rw [htext.length_eq]
    omega
  refine ⟨encode bytes, encodeString_eq garbage3 (by omega), ?_, htext, encode_eq_rfc bytes⟩
  rw [decodeString_eq garbage4 hshort]
  exact decode_encode hlen

/-- Two bytes, of which the last group has one character to fill up. -/
theorem round_trip_two :
    [0x68, 0x69].length < 2 ^ 30 ∧
      (∃ text, encodeString ⟨[0xAA, 0xBB, 0xCC], rfl⟩ [0x68, 0x69] = .ok text ∧
        decodeString ⟨[0xAA, 0xBB, 0xCC, 0xDD], rfl⟩ text = .ok [0x68, 0x69] ∧
        IsText 2 text ∧ text = Rfc4648.encode [0x68, 0x69]) ∧
      Rfc4648.encode [0x68, 0x69] = ascii "aGk=" :=
  ⟨by decide, round_trip _ _ (by decide), by decide⟩

end Base64

end Icl.Security
