import Icl.Format.LittleEndian

namespace Icl.Format

open Icl.Cxx

/-!
# Lower-case hexadecimal

* `hexOf` — a text as hexadecimal, two digits for each byte;
* `printHex width value` — a number as hexadecimal, filled up with zeros to a width;
* `printHex_eq` — a number of `n` bytes is printed as its bytes, the highest one first.
-/

def hexChar (v : Nat) : UInt8 := if v < 10 then .ofNat (0x30 + v) else .ofNat (0x61 + (v - 10))

/-- A text, two digits for each byte. -/
def hexOf (text : Bytes) : Bytes :=
  text.flatMap fun c => [hexChar (c.toNat / 16), hexChar (c.toNat % 16)]

theorem hexOf_append (first second : Bytes) :
    hexOf (first ++ second) = hexOf first ++ hexOf second :=
  List.flatMap_append

/-- A number as `std::hex`, `std::setfill('0')` and `std::setw(width)` print it. -/
def printHex (width value : Nat) : Bytes :=
  let digits := (Nat.toDigits 16 value).map Char.toUInt8
  List.replicate (width - digits.length) 0x30 ++ digits

theorem digitChar_eq {v : Nat} (h : v < 16) : v.digitChar.toUInt8 = hexChar v := by
  have hdigits : ∀ v < 16, v.digitChar.toUInt8 = hexChar v := by decide
  exact hdigits v h

theorem printHex_one {value : Nat} (h : value < 16) : printHex 1 value = [hexChar value] := by
  rw [printHex, Nat.toDigits_of_lt_base h, List.map_singleton, digitChar_eq h]
  rfl

/-- The last digit. -/
theorem printHex_succ {width : Nat} (hwidth : 0 < width) (value : Nat) :
    printHex (width + 1) value = printHex width (value / 16) ++ [hexChar (value % 16)] := by
  have hlast : (value % 16).digitChar.toUInt8 = hexChar (value % 16) :=
    digitChar_eq (Nat.mod_lt _ (by decide))
  unfold printHex
  by_cases h : value < 16
  · -- One digit, and `value / 16` prints the zero in front of it.
    have hfill : width + 1 - 1 = width - 1 + 1 := by omega
    rw [Nat.toDigits_of_lt_base h, Nat.div_eq_of_lt h, Nat.toDigits_zero, Nat.mod_eq_of_lt h]
    rw [Nat.mod_eq_of_lt h] at hlast
    simp only [List.map_singleton, List.length_singleton, hlast, hfill]
    rw [List.replicate_succ', show '0'.toUInt8 = 0x30 from rfl]
  · rw [Nat.toDigits_of_base_le (by decide) (by omega)]
    simp only [List.map_append, List.map_singleton, hlast, List.length_append,
      List.length_singleton, Nat.add_sub_add_right, List.append_assoc]

/-- **A number of `n` bytes is printed as its bytes.** -/
theorem printHex_eq {n value : Nat} (hn : 0 < n) (h : value < 256 ^ n) :
    printHex (2 * n) value = hexOf (bytesBe n value) := by
  have hbyte : ∀ value, hexOf [UInt8.ofNat value]
      = [hexChar (value / 16 % 16), hexChar (value % 16)] := by
    intro value
    show [hexChar ((UInt8.ofNat value).toNat / 16), hexChar ((UInt8.ofNat value).toNat % 16)] = _
    rw [UInt8.toNat_ofNat', show value % 2 ^ 8 / 16 = value / 16 % 16 by omega,
      show value % 2 ^ 8 % 16 = value % 16 by omega]
  induction n, hn using Nat.le_induction generalizing value with
  | base =>
    rw [show 2 * 1 = 1 + 1 from rfl, printHex_succ Nat.one_pos, printHex_one (by omega),
      bytesBe_succ, hexOf_append, hbyte, Nat.mod_eq_of_lt (show value / 16 < 16 by omega)]
    rfl
  | succ n hn ih =>
    have hrest : value / 256 < 256 ^ n :=
      Nat.div_lt_of_lt_mul (by rwa [pow_succ, Nat.mul_comm] at h)
    rw [show 2 * (n + 1) = 2 * n + 1 + 1 from rfl, printHex_succ (Nat.succ_pos _),
      printHex_succ (by omega), Nat.div_div_eq_div_mul, ih hrest, bytesBe_succ, hexOf_append, hbyte,
      List.append_assoc]
    rfl

end Icl.Format
