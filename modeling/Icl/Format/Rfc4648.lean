import Icl.Cxx.Bytes

namespace Icl.Format

open Icl.Cxx

/-!
# Base 64, of RFC 4648

The bits of the bytes, the highest one first, are cut into groups of six, the last group being
filled up with zero bits; each group is a character of the alphabet, and `=` stands for what is
missing from the last three bytes.

* `Rfc4648.encode` — the encoding;
* `encode_three`, `encode_two`, `encode_one` — the encoding, three bytes at a time.
-/

namespace Rfc4648

/-- The bits of a byte, the highest one first. -/
def byteBits (c : UInt8) : List Bool := [7, 6, 5, 4, 3, 2, 1, 0].map c.toNat.testBit

/-- The number with the given bits, the highest one first. -/
def bitsValue (bits : List Bool) : Nat := bits.foldl (fun v b => 2 * v + b.toNat) 0

/-- Six bits at a time, the last ones filled up with zeros. -/
def sextets : List Bool → List Nat
  | b₅ :: b₄ :: b₃ :: b₂ :: b₁ :: b₀ :: rest => bitsValue [b₅, b₄, b₃, b₂, b₁, b₀] :: sextets rest
  | [] => []
  | bits => [bitsValue (bits ++ List.replicate (6 - bits.length) false)]

/-- The alphabet: letters, small letters, digits, plus and slash. -/
def digit (v : Nat) : UInt8 :=
  if v < 26 then .ofNat (0x41 + v)
  else if v < 52 then .ofNat (0x61 + (v - 26))
  else if v < 62 then .ofNat (0x30 + (v - 52))
  else if v = 62 then 0x2B else 0x2F

/-- What is missing from the last three of `n` bytes. -/
def padding (n : Nat) : Bytes := List.replicate ((3 - n % 3) % 3) 0x3D

def encode (bytes : Bytes) : Bytes :=
  (sextets (bytes.flatMap byteBits)).map digit ++ padding bytes.length

/-! ### The bits of a byte -/

/-- Bits put behind others move these up. -/
theorem bitsValue_append (s t : List Bool) :
    bitsValue (s ++ t) = bitsValue s * 2 ^ t.length + bitsValue t := by
  have key : ∀ v, t.foldl (fun v b => 2 * v + b.toNat) v
      = v * 2 ^ t.length + t.foldl (fun v b => 2 * v + b.toNat) 0 := by
    induction t with
    | nil => simp
    | cons b t ih =>
      intro v
      rw [List.foldl_cons, List.foldl_cons, ih (2 * v + b.toNat), ih (2 * 0 + b.toNat),
        List.length_cons, pow_succ]
      ring
  unfold bitsValue
  rw [List.foldl_append, key]

/-- The parts of a byte that go into one character. -/
theorem bitsValue_parts (c : UInt8) :
    bitsValue ((byteBits c).take 6) = c.toNat / 4 ∧ bitsValue ((byteBits c).drop 6) = c.toNat % 4 ∧
    bitsValue ((byteBits c).take 4) = c.toNat / 16 ∧
    bitsValue ((byteBits c).drop 4) = c.toNat % 16 ∧
    bitsValue ((byteBits c).take 2) = c.toNat / 64 ∧
    bitsValue ((byteBits c).drop 2) = c.toNat % 64 := by
  have := forall_byte (p := fun c => decide (
    bitsValue ((byteBits c).take 6) = c.toNat / 4 ∧ bitsValue ((byteBits c).drop 6) = c.toNat % 4 ∧
    bitsValue ((byteBits c).take 4) = c.toNat / 16 ∧
    bitsValue ((byteBits c).drop 4) = c.toNat % 16 ∧
    bitsValue ((byteBits c).take 2) = c.toNat / 64 ∧
    bitsValue ((byteBits c).drop 2) = c.toNat % 64)) (by decide +kernel) c
  exact of_decide_eq_true this

/-- Bits of one byte, and then of the next one. -/
theorem bitsValue_across (c c' : UInt8) :
    bitsValue ((byteBits c).drop 6 ++ (byteBits c').take 4) = c.toNat % 4 * 16 + c'.toNat / 16 ∧
      bitsValue ((byteBits c).drop 4 ++ (byteBits c').take 2)
        = c.toNat % 16 * 4 + c'.toNat / 64 := by
  obtain ⟨-, h₆, -, h₄, -, -⟩ := bitsValue_parts c
  obtain ⟨-, -, h₄', -, h₂', -⟩ := bitsValue_parts c'
  rw [bitsValue_append, bitsValue_append, h₆, h₄, h₄', h₂']
  exact ⟨rfl, rfl⟩

/-! ### Three bytes at a time -/

/-- Three bytes are four groups of six bits. -/
theorem sextets_three (c₀ c₁ c₂ : UInt8) (rest : List Bool) :
    sextets (byteBits c₀ ++ (byteBits c₁ ++ (byteBits c₂ ++ rest)))
      = c₀.toNat / 4 :: (c₀.toNat % 4 * 16 + c₁.toNat / 16) ::
        (c₁.toNat % 16 * 4 + c₂.toNat / 64) :: c₂.toNat % 64 :: sextets rest := by
  rw [← (bitsValue_parts c₀).1, ← (bitsValue_across c₀ c₁).1, ← (bitsValue_across c₁ c₂).2,
    ← (bitsValue_parts c₂).2.2.2.2.2]
  rfl

/-- Two bytes make three digits, the last one filled up with two zero bits. -/
theorem sextets_two (c₀ c₁ : UInt8) :
    sextets (byteBits c₀ ++ byteBits c₁)
      = [c₀.toNat / 4, c₀.toNat % 4 * 16 + c₁.toNat / 16, c₁.toNat % 16 * 4] := by
  -- Four bits of the last byte, and two zero bits.
  have hlast : c₁.toNat % 16 * 4 = bitsValue ((byteBits c₁).drop 4 ++ [false, false]) := by
    rw [bitsValue_append, (bitsValue_parts c₁).2.2.2.1]
    rfl
  rw [← (bitsValue_parts c₀).1, ← (bitsValue_across c₀ c₁).1, hlast]
  rfl

/-- One byte makes two digits, the last one filled up with four. -/
theorem sextets_one (c₀ : UInt8) :
    sextets (byteBits c₀) = [c₀.toNat / 4, c₀.toNat % 4 * 16] := by
  have hlast : c₀.toNat % 4 * 16
      = bitsValue ((byteBits c₀).drop 6 ++ [false, false, false, false]) := by
    rw [bitsValue_append, (bitsValue_parts c₀).2.1]
    rfl
  rw [← (bitsValue_parts c₀).1, hlast]
  rfl

/-- **Three bytes are four digits**, and the rest follows. -/
theorem encode_three (c₀ c₁ c₂ : UInt8) (rest : Bytes) :
    encode (c₀ :: c₁ :: c₂ :: rest)
      = [c₀.toNat / 4, c₀.toNat % 4 * 16 + c₁.toNat / 16, c₁.toNat % 16 * 4 + c₂.toNat / 64,
          c₂.toNat % 64].map digit ++ encode rest := by
  have hpadding : padding (rest.length + 1 + 1 + 1) = padding rest.length := by
    unfold padding
    rw [Nat.add_assoc, Nat.add_assoc, Nat.add_mod_right]
  unfold encode
  rw [List.flatMap_cons, List.flatMap_cons, List.flatMap_cons, sextets_three, List.length_cons,
    List.length_cons, List.length_cons, hpadding]
  rfl

/-- Two bytes at the end are three digits and one padding character. -/
theorem encode_two (c₀ c₁ : UInt8) :
    encode [c₀, c₁]
      = [c₀.toNat / 4, c₀.toNat % 4 * 16 + c₁.toNat / 16, c₁.toNat % 16 * 4].map digit
          ++ [0x3D] := by
  unfold encode
  rw [List.flatMap_cons, List.flatMap_cons, List.flatMap_nil, List.append_nil, sextets_two]
  rfl

/-- One byte at the end is two digits and two padding characters. -/
theorem encode_one (c₀ : UInt8) :
    encode [c₀] = [c₀.toNat / 4, c₀.toNat % 4 * 16].map digit ++ [0x3D, 0x3D] := by
  unfold encode
  rw [List.flatMap_cons, List.flatMap_nil, List.append_nil, sextets_one]
  rfl

end Rfc4648

end Icl.Format
