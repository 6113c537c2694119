import Icl.Cxx.Bytes
import Mathlib.Data.Nat.Digits.Defs

namespace Icl.Format

open Icl.Cxx

/-!
# Numbers as bytes, the lowest one first

* `bytesLe n value` — the `n` bytes of a number;
* `valueLe` — the number with the given bytes;
* `valueLe_bytesLe` — the one is read back from the other when `n` bytes hold it;
* `bytesBe n value` — the same bytes, the highest one first.
-/

/-- The `n` lowest bytes of a number, the lowest one first. -/
def bytesLe : Nat → Nat → Bytes
  | 0, _ => []
  | n + 1, value => UInt8.ofNat value :: bytesLe n (value / 256)

/-- The number with the given bytes, the lowest one first. -/
def valueLe (bytes : Bytes) : Nat := Nat.ofDigits 256 (bytes.map UInt8.toNat)

@[simp] theorem valueLe_nil : valueLe [] = 0 := rfl

/-- The first byte is the lowest digit to the base 256. -/
@[simp] theorem valueLe_cons (byte : UInt8) (bytes : Bytes) :
    valueLe (byte :: bytes) = byte.toNat + 256 * valueLe bytes := by
  rw [valueLe, List.map_cons, Nat.ofDigits_cons, valueLe]

/-- As many bytes are written as are asked for. -/
@[simp] theorem length_bytesLe (n value : Nat) : (bytesLe n value).length = n := by
  induction n generalizing value with
  | zero => rfl
  | succ n ih => rw [bytesLe, List.length_cons, ih]

/-- A number that fits is read back. -/
theorem valueLe_bytesLe {n value : Nat} (h : value < 256 ^ n) :
    valueLe (bytesLe n value) = value := by
  induction n generalizing value with
  | zero =>
    obtain rfl : value = 0 := by simpa using h
    rfl
  | succ n ih =>
    have hrest : value / 256 < 256 ^ n :=
      Nat.div_lt_of_lt_mul (by rwa [pow_succ, Nat.mul_comm] at h)
    rw [bytesLe, valueLe_cons, ih hrest, UInt8.toNat_ofNat']
    omega

/-- Every byte is a digit to the base 256. -/
theorem toNat_lt_of_mem {bytes : Bytes} : ∀ digit ∈ bytes.map UInt8.toNat, digit < 256 := by
  intro digit hdigit
  obtain ⟨byte, -, rfl⟩ := List.mem_map.mp hdigit
  exact byte.toNat_lt

/-- So many bytes stay below that power of 256. -/
theorem valueLe_lt (bytes : Bytes) : valueLe bytes < 256 ^ bytes.length := by
  have hdigits : ∀ digit ∈ bytes.map UInt8.toNat, digit < 256 := toNat_lt_of_mem
  have h := Nat.ofDigits_lt_base_pow_length (by decide) hdigits
  rwa [List.length_map] at h

/-- Two texts of one length with one value are the same. -/
theorem valueLe_inj {s t : Bytes} (hlength : s.length = t.length) :
    valueLe s = valueLe t ↔ s = t := by
  refine ⟨fun h => ?_, congrArg valueLe⟩
  have hmap := Nat.ofDigits_inj_of_len_eq (by decide)
    (by rw [List.length_map, List.length_map, hlength]) toNat_lt_of_mem toNat_lt_of_mem h
  exact List.map_injective_iff.mpr (fun _ _ => UInt8.toNat_inj.mp) hmap

/-- Byte by byte. -/
theorem valueLe_map_range {n : Nat} {f g : Nat → UInt8} :
    valueLe ((List.range n).map f) = valueLe ((List.range n).map g) ↔ ∀ k < n, f k = g k := by
  rw [valueLe_inj (by rw [List.length_map, List.length_map]), List.map_inj_left]
  simp only [List.mem_range]

/-- Zero bytes have the value zero. -/
theorem valueLe_map_zero (n : Nat) : valueLe ((List.range n).map fun _ => 0) = 0 := by
  induction n with
  | zero => rfl
  | succ n ih =>
    rw [List.range_succ_eq_map, List.map_cons, List.map_map, valueLe_cons, UInt8.toNat_zero]
    exact Nat.add_eq_zero_iff.mpr ⟨rfl, Nat.mul_eq_zero.mpr (.inr ih)⟩

/-! ### The highest byte first -/

/-- The `n` lowest bytes of a number, the highest one first. -/
def bytesBe (n value : Nat) : Bytes := (bytesLe n value).reverse

/-- As many bytes are written as are asked for, the other way round as well. -/
@[simp] theorem length_bytesBe (n value : Nat) : (bytesBe n value).length = n := by
  rw [bytesBe, List.length_reverse, length_bytesLe]

/-- The last byte of the big-endian form is the lowest digit. -/
theorem bytesBe_succ (n value : Nat) :
    bytesBe (n + 1) value = bytesBe n (value / 256) ++ [UInt8.ofNat value] := by
  rw [bytesBe, bytesLe, List.reverse_cons, bytesBe]

end Icl.Format
