import Icl.Cxx.Bytes
import Icl.Format.Gf128

namespace Icl.Format

open Icl.Cxx

/-!
# GCM, of NIST SP 800-38D

Texts are bytes, and an IV has twelve of them.  The block cipher is a parameter, the key being in
it.

* `ofBytes`, `toBytes` — the block of some bytes, and the bytes of a block;
* `ghash`, `gctr` — the two functions of section 6;
* `encrypt`, `decrypt` — the authenticated encryption and decryption of section 7;
* `gctr_xor` — two texts under the same counter blocks.
-/

namespace Sp80038d

/-! ### Blocks -/

/-- The first `n` bytes of a text as `w` bits, with zeros behind if there are fewer of them. -/
def load (w : Nat) (text : Bytes) : Nat → BitVec w
  | 0 => 0
  | n + 1 => load w text n <<< 8 ||| (text.getD n 0).toBitVec.setWidth w

/-- The first sixteen bytes of a text as a block. -/
def ofBytes (text : Bytes) : BitVec 128 := load 128 text 16

/-- Byte `k` of a block. -/
def byteAt (v : BitVec 128) (k : Nat) : UInt8 := .ofBitVec (v.extractLsb' (120 - 8 * k) 8)

/-- The bytes of a block. -/
def toBytes (v : BitVec 128) : Bytes := (List.range 16).map (byteAt v)

@[simp] theorem length_toBytes (v : BitVec 128) : (toBytes v).length = 16 := by
  rw [toBytes, List.length_map, List.length_range]

/-- The bits of a big-endian number, byte by byte. -/
theorem getLsbD_load {w : Nat} (text : Bytes) {n : Nat} (hn : 8 * n ≤ w) {j : Nat}
    (hj : j < 8 * n) :
    (load w text n).getLsbD j = (text.getD (n - 1 - j / 8) 0).toBitVec.getLsbD (j % 8) := by
  induction n generalizing j with
  | zero => omega
  | succ n ih =>
    rw [load, BitVec.getLsbD_or, BitVec.getLsbD_shiftLeft, BitVec.getLsbD_setWidth]
    have hwidth : j < w := by omega
    by_cases hlow : j < 8
    · -- The last byte.
      simp [hwidth, hlow, Nat.div_eq_of_lt hlow, Nat.mod_eq_of_lt hlow]
    · have hbyte : (text.getD n 0).toBitVec.getLsbD j = false :=
        BitVec.getLsbD_of_ge _ _ (by omega)
      have hindex : n + 1 - 1 - j / 8 = n - 1 - (j - 8) / 8 := by omega
      have hbit : j % 8 = (j - 8) % 8 := by omega
      rw [ih (by omega) (show j - 8 < 8 * n by omega), hbyte, hindex, hbit]
      simp [hwidth, hlow]

/-- Only the bytes that are read count. -/
theorem load_congr {w n : Nat} {text text' : Bytes} (h : ∀ k < n, text.getD k 0 = text'.getD k 0) :
    load w text n = load w text' n := by
  induction n with
  | zero => rfl
  | succ n ih => rw [load, load, ih fun k hk => h k (by omega), h n (Nat.lt_succ_self n)]

/-- The value of some bytes, which is below the power that they need. -/
theorem toNat_load {w : Nat} (text : Bytes) {n : Nat} (hn : 8 * n ≤ w) :
    (load w text n).toNat < 256 ^ n ∧ ∀ m < n,
      (load w text (m + 1)).toNat = 256 * (load w text m).toNat + (text.getD m 0).toNat := by
  induction n with
  | zero => exact ⟨by simp [load], fun m hm => absurd hm (Nat.not_lt_zero m)⟩
  | succ n ih =>
    obtain ⟨hlt, hsteps⟩ := ih (by omega)
    have hbyte := (text.getD n 0).toNat_lt
    have hpow : 256 ^ n * 256 ≤ 2 ^ w := by
      rw [← pow_succ, show 256 = 2 ^ 8 from rfl, ← pow_mul]
      exact Nat.pow_le_pow_right (by decide) hn
    -- The next byte comes below the ones read so far.
    have hlast : (load w text (n + 1)).toNat
        = 256 * (load w text n).toNat + (text.getD n 0).toNat := by
      have hshift : (load w text n).toNat <<< 8 % 2 ^ w = (load w text n).toNat <<< 8 := by
        rw [Nat.shiftLeft_eq]
        exact Nat.mod_eq_of_lt (by omega)
      have hwidth : (text.getD n 0).toNat % 2 ^ w = (text.getD n 0).toNat :=
        Nat.mod_eq_of_lt (by have := Nat.one_le_pow n 256 (by decide); omega)
      rw [load, BitVec.toNat_or, BitVec.toNat_shiftLeft, BitVec.toNat_setWidth,
        UInt8.toNat_toBitVec, hshift, hwidth, ← Nat.shiftLeft_add_eq_or_of_lt hbyte,
        Nat.shiftLeft_eq]
      omega
    refine ⟨?_, fun m hm => ?_⟩
    · rw [hlast, pow_succ]
      omega
    · by_cases hmn : m = n
      · rw [hmn, hlast]
      · exact hsteps m (by omega)

/-- **The bits of a block** are those of its bytes. -/
theorem getMsbD_ofBytes (text : Bytes) {i : Nat} (hi : i < 128) :
    (ofBytes text).getMsbD i = (text.getD (i / 8) 0).toBitVec.getMsbD (i % 8) := by
  have hindex : 16 - 1 - (128 - 1 - i) / 8 = i / 8 := by omega
  have hbit : (128 - 1 - i) % 8 = 8 - 1 - i % 8 := by omega
  rw [BitVec.getMsbD_eq_getLsbD, BitVec.getMsbD_eq_getLsbD, ofBytes,
    getLsbD_load text (Nat.le_refl 128) (by omega), hindex, hbit, decide_eq_true hi,
    decide_eq_true (Nat.mod_lt i (by decide))]

/-- A byte of a block holds its eight bits in their order. -/
theorem getMsbD_byteAt (v : BitVec 128) {k i : Nat} (hk : k < 16) (hi : i < 8) :
    (byteAt v k).toBitVec.getMsbD i = v.getMsbD (8 * k + i) := by
  have hindex : 120 - 8 * k + (8 - 1 - i) = 128 - 1 - (8 * k + i) := by omega
  rw [BitVec.getMsbD_eq_getLsbD, BitVec.getMsbD_eq_getLsbD, byteAt, BitVec.getLsbD_extractLsb',
    hindex, decide_eq_true hi, decide_eq_true (show 8 * k + i < 128 by omega),
    decide_eq_true (show 8 - 1 - i < 8 by omega)]
  rfl

/-- The bytes of a block, one by one. -/
theorem getD_toBytes (v : BitVec 128) {k : Nat} (hk : k < 16) :
    (toBytes v).getD k 0 = byteAt v k := by
  rw [toBytes, List.getD_eq_getElem?_getD, List.getElem?_map, List.getElem?_range hk]
  rfl

/-- Bytes with the same bits are the same. -/
theorem byte_ext {a b : UInt8} (h : ∀ i < 8, a.toBitVec.getMsbD i = b.toBitVec.getMsbD i) :
    a = b := by
  apply UInt8.eq_of_toBitVec_eq
  exact BitVec.eq_of_getMsbD_eq h

/-- Written as bytes and read again, a block is itself. -/
theorem ofBytes_toBytes (v : BitVec 128) : ofBytes (toBytes v) = v := by
  apply BitVec.eq_of_getMsbD_eq
  intro i hi
  rw [getMsbD_ofBytes _ hi, getD_toBytes v (show i / 8 < 16 by omega),
    getMsbD_byteAt v (by omega) (Nat.mod_lt i (by decide)), Nat.div_add_mod]

/-- A block read from bytes has these bytes. -/
theorem byteAt_ofBytes (text : Bytes) {k : Nat} (hk : k < 16) :
    byteAt (ofBytes text) k = text.getD k 0 := by
  apply byte_ext
  intro i hi
  have hbyte : (8 * k + i) / 8 = k := by omega
  have hbit : (8 * k + i) % 8 = i := by omega
  rw [getMsbD_byteAt _ hk hi, getMsbD_ofBytes _ (by omega), hbyte, hbit]

/-- Sixteen bytes read as a block and written again are themselves. -/
theorem toBytes_ofBytes {text : Bytes} (h : text.length = 16) : toBytes (ofBytes text) = text := by
  apply List.ext_getElem
  · rw [length_toBytes, h]
  · intro k hk hk'
    have hget := byteAt_ofBytes text (show k < 16 by omega)
    rw [List.getD_eq_getElem?_getD, List.getElem?_eq_getElem hk', Option.getD_some] at hget
    simpa [toBytes] using hget

/-- Blocks are combined byte by byte. -/
theorem byteAt_xor (v w : BitVec 128) {k : Nat} (hk : k < 16) :
    byteAt (v ^^^ w) k = byteAt v k ^^^ byteAt w k := by
  apply byte_ext
  intro i hi
  rw [getMsbD_byteAt _ hk hi, UInt8.toBitVec_xor, BitVec.getMsbD_xor, BitVec.getMsbD_xor,
    getMsbD_byteAt _ hk hi, getMsbD_byteAt _ hk hi]

/-- Blocks with the same bytes are the same. -/
theorem block_ext {v w : BitVec 128} (h : ∀ k < 16, byteAt v k = byteAt w k) : v = w := by
  rw [← ofBytes_toBytes v, ← ofBytes_toBytes w, toBytes, toBytes]
  exact congrArg ofBytes (List.map_congr_left fun k hk => h k (List.mem_range.mp hk))

/-- The blocks of a text, the last one with zeros behind. -/
def blocks (text : Bytes) : List (BitVec 128) :=
  (List.range ((text.length + 15) / 16)).map fun k => ofBytes ((text.drop (16 * k)).take 16)

@[simp] theorem blocks_nil : blocks [] = [] := rfl

/-- The first block of a text. -/
theorem blocks_of_ne_nil {text : Bytes} (h : text ≠ []) :
    blocks text = ofBytes (text.take 16) :: blocks (text.drop 16) := by
  have hpos := List.length_pos_of_ne_nil h
  have hcount : (text.length + 15) / 16 = ((text.drop 16).length + 15) / 16 + 1 := by
    rw [List.length_drop]
    omega
  rw [blocks, hcount, List.range_succ_eq_map, List.map_cons, List.map_map, Nat.mul_zero,
    List.drop_zero, blocks]
  congr 1
  refine List.map_congr_left fun k _ => ?_
  rw [Function.comp_apply, List.drop_drop]
  congr 3
  omega

/-! ### The functions -/

/-- The increment of the last 32 bits. -/
def inc32 (v : BitVec 128) : BitVec 128 := v.extractLsb' 32 96 ++ (v.setWidth 32 + 1)

/-- `GHASH`, with the hash subkey `h`. -/
def ghash (h : BitVec 128) (xs : List (BitVec 128)) : BitVec 128 :=
  xs.foldl (fun y x => Gf128.mul (y ^^^ x) h) 0

/-- Only the last 32 bits are counted on, modulo 2^32. -/
theorem toNat_inc32 (v : BitVec 128) :
    (inc32 v).toNat = v.toNat / 2 ^ 32 * 2 ^ 32 + (v.toNat + 1) % 2 ^ 32 := by
  have hhigh : v.toNat / 2 ^ 32 < 2 ^ 96 := by
    have := v.isLt
    omega
  have hlow : (v.toNat + 1) % 2 ^ 32 < 2 ^ 32 := Nat.mod_lt _ (by decide)
  rw [inc32, BitVec.toNat_append, BitVec.extractLsb'_toNat, BitVec.toNat_add, BitVec.toNat_setWidth,
    Nat.shiftRight_eq_div_pow, Nat.mod_eq_of_lt hhigh]
  show (v.toNat / 2 ^ 32) <<< 32 ||| (v.toNat % 2 ^ 32 + 1) % 2 ^ 32 = _
  rw [Nat.mod_add_mod, ← Nat.shiftLeft_add_eq_or_of_lt hlow, Nat.shiftLeft_eq]

variable (ciph : BitVec 128 → BitVec 128)

/-- Byte `i` of the counter blocks, encrypted. -/
def keystream (icb : BitVec 128) (i : Nat) : UInt8 := byteAt (ciph (inc32^[i / 16] icb)) (i % 16)

/-- `GCTR`. -/
def gctr (icb : BitVec 128) (text : Bytes) : Bytes :=
  text.mapIdx fun i c => keystream ciph icb i ^^^ c

/-- The block before the first counter block of a text. -/
def preCounter (iv : Bytes) : BitVec 128 := ofBytes (iv ++ [0, 0, 0, 1])

/-- The numbers of bits of the additional data and of the ciphertext. -/
def lengths (add cipher : Bytes) : BitVec 128 :=
  BitVec.ofNat 64 (8 * add.length) ++ BitVec.ofNat 64 (8 * cipher.length)

/-- The tag, of sixteen bytes. -/
def tag (iv add cipher : Bytes) : Bytes :=
  gctr ciph (preCounter iv)
    (toBytes (ghash (ciph 0) (blocks add ++ blocks cipher ++ [lengths add cipher])))

/-- The ciphertext and the tag. -/
def encrypt (iv add text : Bytes) : Bytes × Bytes :=
  let cipher := gctr ciph (inc32 (preCounter iv)) text
  (cipher, tag ciph iv add cipher)

/-- The text, if the tag is right. -/
def decrypt (iv add cipher received : Bytes) : Option Bytes :=
  if tag ciph iv add cipher = received then some (gctr ciph (inc32 (preCounter iv)) cipher)
  else none

@[simp] theorem length_gctr (icb : BitVec 128) (text : Bytes) :
    (gctr ciph icb text).length = text.length := by
  rw [gctr, List.length_mapIdx]

/-- **Two texts under the same counter blocks**: what differs between the texts differs between the
    ciphertexts. -/
theorem gctr_xor (icb : BitVec 128) (text text' : Bytes) :
    (gctr ciph icb text).zipWith (· ^^^ ·) (gctr ciph icb text')
      = text.zipWith (· ^^^ ·) text' := by
  apply List.ext_getElem?
  intro i
  have hcancel : ∀ k c d : UInt8, (k ^^^ c) ^^^ (k ^^^ d) = c ^^^ d := fun k c d => by
    rw [UInt8.xor_comm k c, UInt8.xor_assoc, ← UInt8.xor_assoc k, UInt8.xor_self, UInt8.zero_xor]
  simp only [gctr, List.getElem?_zipWith, List.getElem?_mapIdx]
  cases text[i]? with
  | none => rfl
  | some c =>
    cases text'[i]? with
    | none => rfl
    | some d => exact congrArg some (hcancel _ c d)

/-- The first block of a text, and the rest under the counter blocks that follow. -/
theorem gctr_eq (icb : BitVec 128) (text : Bytes) :
    gctr ciph icb text = (toBytes (ciph icb)).zipWith (· ^^^ ·) (text.take 16)
      ++ gctr ciph (inc32 icb) (text.drop 16) := by
  conv_lhs => rw [← List.take_append_drop 16 text, gctr, List.mapIdx_append]
  congr 1
  · -- The first counter block.
    rw [List.mapIdx_eq_iff]
    intro i
    by_cases hi : i < 16
    · rw [List.getElem?_zipWith, toBytes, List.getElem?_map, List.getElem?_range hi, keystream,
        Nat.div_eq_of_lt hi, Nat.mod_eq_of_lt hi]
      cases (text.take 16)[i]? with
      | none => rfl
      | some c => rfl
    · rw [List.getElem?_eq_none (by rw [List.length_zipWith, length_toBytes]; omega),
        List.getElem?_eq_none (by rw [List.length_take]; omega)]
      rfl
  · rw [gctr]
    -- The later blocks are those of the next counter; of a short text there are none.
    by_cases hlong : 16 ≤ text.length
    · rw [List.length_take_of_le hlong]
      congr 1
      funext i
      have hindex : (i + 16) / 16 = i / 16 + 1 := by omega
      have hbit : (i + 16) % 16 = i % 16 := by omega
      rw [keystream, hindex, hbit, Function.iterate_succ_apply, keystream]
    · rw [List.drop_of_length_le (by omega), List.mapIdx_nil, List.mapIdx_nil]

/-- One block. -/
theorem gctr_block (icb v : BitVec 128) :
    gctr ciph icb (toBytes v) = toBytes (ciph icb ^^^ v) := by
  have htake : (toBytes v).take 16 = toBytes v := List.take_of_length_le (by simp)
  have hdrop : (toBytes v).drop 16 = [] := List.drop_of_length_le (by simp)
  rw [gctr_eq, htake, hdrop, gctr, List.mapIdx_nil, List.append_nil, toBytes, toBytes, toBytes,
    List.zipWith_map, List.zipWith_self]
  exact List.map_congr_left fun k hk => (byteAt_xor _ _ (List.mem_range.mp hk)).symm

end Sp80038d

end Icl.Format
