import Icl.Format.Hex
import Icl.Protocol.HttpClient

namespace Icl.Util

open Icl.Cxx Icl.Format Icl.Protocol

/-!
# `ToHex` and `HexStringToUint8`

* `toHex`, `hexStringToUint8` — the two functions of `util/Util.cpp`;
* `toHex_eq`, `map_tolower_hexText` — the text that is written, and its lower-case form;
* `IsAlphabet` — digits that are read as what they stand for;
* `hexStringToUint8_hexText` — a text in such digits, two for each byte, is read back;
* `hexStringToUint8_toHex` — the round trip.
-/

/-! ### The functions -/

/-- `binHex`. -/
def binHex : Bytes := ascii "0123456789ABCDEF"

/-- `Util::ByteToHex`: the two characters of `out`.  The signed `byte` is promoted to `int`. -/
def byteToHex (byte : UInt8) : Except Fault (UInt8 × UInt8) := do
  let value : Int32 := byte.toInt8.toInt32
  let high ← index binHex ((value >>> 4) &&& 0x0F).toBitVec.toNat
  let low ← index binHex (value &&& 0x0F).toBitVec.toNat
  return (high, low)

/-- `Util::ToHex`. -/
def toHex (buf : Bytes) (size : ℕ) : Except Fault Bytes :=
  (List.range size).foldlM
    (fun hexstr i => do
      let byte ← index buf i
      let out ← byteToHex byte
      return hexstr ++ [out.1] ++ [out.2])
    []

/-- `byte & 0xFF`, for the `byte` that is read from two characters.  It is `garbage` when nothing
    can be read. -/
def windowByte (garbage : ℤ) (window : Bytes) : UInt8 :=
  .ofNat (extractHexInt32 window garbage % 256).toNat

/-- `Util::HexStringToUint8`, which leaves `output`.  The counter `i` goes up by two. -/
def hexStringToUint8 (garbage : ℤ) (input output : Bytes) : Except Fault Bytes :=
  (List.range' 0 ((input.length + 1) / 2) 2).foldlM
    (fun output i => do
      let window ← substr input i 2
      store output (i / 2) (windowByte garbage window))
    output

/-! ### Writing -/

/-- An upper-case digit. -/
def hexUpper (v : ℕ) : UInt8 := if v < 10 then .ofNat (0x30 + v) else .ofNat (0x41 + (v - 10))

/-- The two digits of each byte. -/
def hexText (digit : ℕ → UInt8) (b : Bytes) : Bytes :=
  b.flatMap fun c => [digit (c.toNat / 16), digit (c.toNat % 16)]

/-- Two digits for each byte. -/
theorem length_hexText (digit : ℕ → UInt8) (b : Bytes) :
    (hexText digit b).length = 2 * b.length := by
  simp [hexText, List.length_flatMap, Nat.mul_comm]

/-- The digits are written byte by byte. -/
theorem hexText_append (digit : ℕ → UInt8) (b b' : Bytes) :
    hexText digit (b ++ b') = hexText digit b ++ hexText digit b' :=
  List.flatMap_append

/-- The sign makes no difference. -/
theorem byteToHex_eq (c : UInt8) :
    byteToHex c = .ok (hexUpper (c.toNat / 16), hexUpper (c.toNat % 16)) := by
  have := forall_byte (p := fun c =>
    byteToHex c = .ok (hexUpper (c.toNat / 16), hexUpper (c.toNat % 16))) (by decide +kernel) c
  simpa using this

/-- `ToHex` writes the upper-case digits. -/
theorem toHex_eq (b : Bytes) : toHex b b.length = .ok (hexText hexUpper b) := by
  have key : ∀ n ≤ b.length, toHex b n = .ok (hexText hexUpper (b.take n)) := by
    intro n hn
    induction n with
    | zero => rfl
    | succ n ih =>
      have hstep := ih (by omega)
      unfold toHex at hstep ⊢
      rw [List.range_succ, List.foldlM_append, hstep, ok_bind, List.foldlM_cons,
        index_of_lt hn, ok_bind, byteToHex_eq, ok_bind, List.take_succ_eq_append_getElem hn,
        hexText_append, List.append_assoc]
      rfl
  rw [key b.length le_rfl, List.take_length]

/-- In lower case they are those of `Uint8ToHexString`. -/
theorem map_tolower_hexText (b : Bytes) :
    (hexText hexUpper b).map tolower = hexText hexChar b := by
  have hlower : ∀ v < 16, tolower (hexUpper v) = hexChar v := by decide
  have hpair : ∀ c : UInt8, [hexUpper (c.toNat / 16), hexUpper (c.toNat % 16)].map tolower
      = [hexChar (c.toNat / 16), hexChar (c.toNat % 16)] := by
    intro c
    have hc := c.toNat_lt
    rw [List.map_cons, List.map_singleton, hlower _ (by omega), hlower _ (by omega)]
  rw [hexText, hexText, List.map_flatMap]
  exact congrArg (b.flatMap ·) (funext hpair)

/-! ### Reading -/

/-- The digits are read as what they stand for. -/
def IsAlphabet (digit : ℕ → UInt8) : Prop :=
  ∀ v < 16, isxdigit (digit v) = true ∧ hexDigit (digit v) = v

/-- The upper-case digits are an alphabet. -/
theorem isAlphabet_hexUpper : IsAlphabet hexUpper := by
  unfold IsAlphabet
  decide

/-- So are the lower-case ones. -/
theorem isAlphabet_hexChar : IsAlphabet hexChar := by
  unfold IsAlphabet
  decide

/-- A digit is no blank, no sign and no part of a prefix. -/
theorem xdigit_ne {c : UInt8} (h : isxdigit c = true) :
    isspace c = false ∧ c ≠ 0x2B ∧ c ≠ 0x2D ∧ c ≠ 0x78 ∧ c ≠ 0x58 := by
  have := forall_byte (p := fun c => !isxdigit c ||
    !(isspace c || c == 0x2B || c == 0x2D || c == 0x78 || c == 0x58)) (by decide +kernel) c
  simpa [h, and_assoc] using this

/-- **Two digits** are read as their number. -/
theorem extractHexInt32_digits {c c' : UInt8} (hc : isxdigit c = true) (hc' : isxdigit c' = true)
    (garbage : ℤ) : extractHexInt32 [c, c'] garbage
      = max (-2 ^ 31) (min ((hexDigit c * 16 + hexDigit c' : ℕ) : ℤ) (2 ^ 31 - 1)) := by
  obtain ⟨hspace, hplus, hminus, -, -⟩ := xdigit_ne hc
  obtain ⟨-, -, -, hx, hX⟩ := xdigit_ne hc'
  have hprefix : skipHexPrefix [c, c'] = [c, c'] := by
    unfold skipHexPrefix
    split
    case h_1 heq => exact absurd (List.cons.inj (List.cons.inj heq).2).1 hx
    case h_2 heq => exact absurd (List.cons.inj (List.cons.inj heq).2).1 hX
    case h_3 => rfl
  have hall : [c, c'].takeWhile isxdigit = [c, c'] :=
    List.takeWhile_eq_self_iff.mpr (by simp [hc, hc'])
  rw [extractHexInt32, List.dropWhile_cons_of_neg (by simp [hspace])]
  simp only [beq_eq_false_iff_ne.mpr hplus, beq_eq_false_iff_ne.mpr hminus, Bool.or_self,
    Bool.false_eq_true, if_false, hprefix, hall]
  rw [hexValue, List.foldl_cons, List.foldl_cons, List.foldl_nil, Nat.zero_mul, Nat.zero_add]

/-- **Two digits are read as the byte they were written for.** -/
theorem windowByte_digits {digit : ℕ → UInt8} (hdigit : IsAlphabet digit) (garbage : ℤ)
    (c : UInt8) : windowByte garbage [digit (c.toNat / 16), digit (c.toNat % 16)] = c := by
  have hc := c.toNat_lt
  obtain ⟨hhigh, hhighValue⟩ := hdigit (c.toNat / 16) (by omega)
  obtain ⟨hlow, hlowValue⟩ := hdigit (c.toNat % 16) (by omega)
  have hnumber : c.toNat / 16 * 16 + c.toNat % 16 = c.toNat := Nat.div_add_mod' c.toNat 16
  have hrange : max (-2 ^ 31) (min ((c.toNat : ℕ) : ℤ) (2 ^ 31 - 1)) = c.toNat := by omega
  have hbyte : ((c.toNat : ℤ) % 256).toNat = c.toNat := by omega
  rw [windowByte, extractHexInt32_digits hhigh hlow, hhighValue, hlowValue, hnumber, hrange, hbyte,
    UInt8.ofNat_toNat]

/-- The windows of a text. -/
theorem substr_hexText (digit : ℕ → UInt8) {b : Bytes} {n : ℕ} (hn : n < b.length) :
    substr (hexText digit b) (2 * n) 2
      = .ok [digit (b[n].toNat / 16), digit (b[n].toNat % 16)] := by
  have hsplit : hexText digit b = hexText digit (b.take n)
      ++ ([digit (b[n].toNat / 16), digit (b[n].toNat % 16)]
        ++ hexText digit (b.drop (n + 1))) := by
    conv_lhs => rw [← List.take_append_drop n b, List.drop_eq_getElem_cons hn]
    rw [hexText_append]
    rfl
  have htake : (hexText digit (b.take n)).length = 2 * n := by
    rw [length_hexText, List.length_take_of_le (by omega)]
  rw [substr_of_le (by rw [length_hexText]; omega), hsplit, ← htake, List.drop_left]
  rfl

/-- **Two digits for each byte are read back.** -/
theorem hexStringToUint8_hexText {digit : ℕ → UInt8} (hdigit : IsAlphabet digit) (garbage : ℤ)
    {b output : Bytes} (h : b.length ≤ output.length) :
    hexStringToUint8 garbage (hexText digit b) output = .ok (b ++ output.drop b.length) := by
  have hturns : ((hexText digit b).length + 1) / 2 = b.length := by
    rw [length_hexText]
    omega
  -- After `n` turns the first `n` bytes are in their places and the rest is as it was.
  have key : ∀ n ≤ b.length,
      (List.range' 0 n 2).foldlM (fun output i => do
        let window ← substr (hexText digit b) i 2
        store output (i / 2) (windowByte garbage window)) output
      = .ok (b.take n ++ output.drop n) := by
    intro n hn
    induction n with
    | zero => rfl
    | succ n ih =>
      have hroom : n < (b.take n ++ output.drop n).length := by
        simp only [List.length_append, List.length_take, List.length_drop]
        omega
      have hset : (b.take n ++ output.drop n).set n b[n]
          = b.take (n + 1) ++ output.drop (n + 1) := by
        rw [List.set_append_right _ _ (by simp), List.length_take_of_le (by omega), Nat.sub_self,
          List.drop_eq_getElem_cons (by omega), List.set_cons_zero,
          List.take_succ_eq_append_getElem hn, List.append_assoc]
        rfl
      rw [List.range'_concat, List.foldlM_append, ih (by omega), ok_bind, Nat.zero_add,
        List.foldlM_cons, substr_hexText digit hn, ok_bind, Nat.mul_div_cancel_left n (by decide),
        windowByte_digits hdigit, store_of_lt hroom, hset]
      rfl
  unfold hexStringToUint8
  rw [hturns, key b.length le_rfl, List.take_length]

/-- **The round trip**, in upper and in lower case: the bytes are written, and what follows them in
    `output` stays. -/
theorem hexStringToUint8_toHex (garbage : ℤ) {b output : Bytes} (h : b.length ≤ output.length) :
    ∃ text, toHex b b.length = .ok text ∧
      hexStringToUint8 garbage text output = .ok (b ++ output.drop b.length) ∧
      hexStringToUint8 garbage (text.map tolower) output = .ok (b ++ output.drop b.length) := by
  refine ⟨hexText hexUpper b, toHex_eq b, ?_, ?_⟩
  · exact hexStringToUint8_hexText isAlphabet_hexUpper garbage h
  · rw [map_tolower_hexText]
    exact hexStringToUint8_hexText isAlphabet_hexChar garbage h

/-- A byte with its sign bit set is read back, and the last byte of the output stays. -/
theorem hexStringToUint8_toHex_sign :
    toHex [0x09, 0xAF] 2 = .ok (ascii "09AF") ∧
      hexStringToUint8 7 (ascii "09AF") [1, 2, 3] = .ok [0x09, 0xAF, 3] ∧
      hexStringToUint8 7 (ascii "09af") [1, 2, 3] = .ok [0x09, 0xAF, 3] := by
  have htext : toHex [0x09, 0xAF] 2 = .ok (ascii "09AF") := by decide
  obtain ⟨text, hwritten, hupper, hlower⟩ :=
    hexStringToUint8_toHex 7 (show [0x09, 0xAF].length ≤ [1, 2, 3].length by decide)
  obtain rfl := Except.ok.inj (htext.symm.trans hwritten)
  exact ⟨htext, hupper, hlower⟩

end Icl.Util
