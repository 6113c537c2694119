import Icl.Format.Fips197
import Icl.Security.Aes
import Icl.Security.GcmStandard

namespace Icl.Security

open Icl.Cxx Icl.Format

/-!
# `aes.c` and the standard

The functions of `aes.c` are AES of FIPS 197, for all three sizes of keys.

* `word_ft0` — an entry of the tables is a byte that has been substituted, in its column mixed;
* `fround_eq` — a round;
* `setkeyEnc_words` — the key schedule;
* `encrypt_standard` — a block.
-/

namespace Aes

open Fips197

/-! ### Words and bytes -/

/-- Byte `k` of a word. -/
def byteOf (x : UInt32) (k : Nat) : UInt8 := .ofBitVec (x.toBitVec.extractLsb' (8 * k) 8)

/-- A word by its bytes, the lowest one first. -/
def word (x : UInt32) : Word := ⟨byteOf x 0, byteOf x 1, byteOf x 2, byteOf x 3⟩

/-- Byte `k` of a word holds its bits from `8 k` on. -/
theorem getLsbD_byteOf (x : UInt32) (k : Nat) {i : Nat} (hi : i < 8) :
    (byteOf x k).toBitVec.getLsbD i = x.toBitVec.getLsbD (8 * k + i) := by
  rw [byteOf, BitVec.getLsbD_extractLsb', decide_eq_true hi, Bool.true_and]

/-- Bytes are equal when their eight bits are. -/
theorem byte_ext {a b : UInt8} (h : ∀ i < 8, a.toBitVec.getLsbD i = b.toBitVec.getLsbD i) :
    a = b :=
  UInt8.eq_of_toBitVec_eq (BitVec.eq_of_getLsbD_eq h)

/-- The bytes of an exclusive or are those of the two words, combined. -/
theorem byteOf_xor (x y : UInt32) (k : Nat) : byteOf (x ^^^ y) k = byteOf x k ^^^ byteOf y k := by
  apply byte_ext
  intro i hi
  rw [getLsbD_byteOf _ _ hi, UInt32.toBitVec_xor, UInt8.toBitVec_xor, BitVec.getLsbD_xor,
    BitVec.getLsbD_xor, getLsbD_byteOf _ _ hi, getLsbD_byteOf _ _ hi]

/-- The same of an inclusive or. -/
theorem byteOf_or (x y : UInt32) (k : Nat) : byteOf (x ||| y) k = byteOf x k ||| byteOf y k := by
  apply byte_ext
  intro i hi
  rw [getLsbD_byteOf _ _ hi, UInt32.toBitVec_or, UInt8.toBitVec_or, BitVec.getLsbD_or,
    BitVec.getLsbD_or, getLsbD_byteOf _ _ hi, getLsbD_byteOf _ _ hi]

/-- So the words of the standard are combined as the machine words are. -/
theorem word_xor (x y : UInt32) : word (x ^^^ y) = word x ^^^ word y := by
  rw [word, byteOf_xor, byteOf_xor, byteOf_xor, byteOf_xor]
  rfl

/-- A number of bits as it is shifted by. -/
theorem toBitVec_shiftRight (x : UInt32) {n : UInt32} {s : Nat} (hn : n.toNat = s) (hs : s < 32) :
    (x >>> n).toBitVec = x.toBitVec >>> s := by
  have hmod : n.toNat % 32 = s := by rw [hn, Nat.mod_eq_of_lt hs]
  rw [UInt32.toBitVec_shiftRight]
  apply BitVec.eq_of_toNat_eq
  simp [hmod]

/-- A shift by less than the width shifts the bits. -/
theorem toBitVec_shiftLeft (x : UInt32) {n : UInt32} {s : Nat} (hn : n.toNat = s) (hs : s < 32) :
    (x <<< n).toBitVec = x.toBitVec <<< s := by
  have hmod : n.toNat % 32 = s := by rw [hn, Nat.mod_eq_of_lt hs]
  rw [UInt32.toBitVec_shiftLeft]
  apply BitVec.eq_of_toNat_eq
  simp [hmod]

/-- A byte that has been shifted to its place. -/
theorem byteOf_shift (c : UInt8) {n : UInt32} {s k : Nat} (hn : n.toNat = 8 * s) (hs : s < 4)
    (hk : k < 4) : byteOf (c.toUInt32 <<< n) k = if k = s then c else 0 := by
  apply byte_ext
  intro i hi
  rw [getLsbD_byteOf _ _ hi, toBitVec_shiftLeft _ hn (by omega), BitVec.getLsbD_shiftLeft,
    UInt8.toBitVec_toUInt32, BitVec.getLsbD_setWidth, decide_eq_true (show 8 * k + i < 32 by omega)]
  by_cases hks : k = s
  · have hindex : 8 * k + i - 8 * s = i := by omega
    rw [if_pos hks, hindex, decide_eq_true (show i < 32 by omega),
      decide_eq_false (show ¬ 8 * k + i < 8 * s by omega)]
    simp
  · rw [if_neg hks]
    by_cases hlow : 8 * k + i < 8 * s
    · simp [hlow]
    · simp [hlow, BitVec.getLsbD_of_ge c.toBitVec (8 * k + i - 8 * s) (by omega)]

/-- The lowest byte of a word that has been shifted. -/
theorem byteOf_eq (x : UInt32) {n : UInt32} {k : Nat} (hn : n.toNat = 8 * k) (hk : k < 4) :
    byteOf x k = (x >>> n).toUInt8 := by
  apply byte_ext
  intro i hi
  rw [getLsbD_byteOf _ _ hi, UInt32.toBitVec_toUInt8, toBitVec_shiftRight _ hn (by omega),
    BitVec.getLsbD_setWidth, decide_eq_true hi, BitVec.getLsbD_ushiftRight, Bool.true_and]

/-- The lowest byte of a word is what a cast to `unsigned char` keeps. -/
theorem byteOf_zero (x : UInt32) : byteOf x 0 = x.toUInt8 := by
  rw [byteOf_eq x (show (0 : UInt32).toNat = 8 * 0 from rfl) (by decide), UInt32.shiftRight_zero]

/-- The mask `& 0xFF` does not change this byte. -/
theorem toUInt8_and_255 (x : UInt32) : (x &&& 0xFF).toUInt8 = x.toUInt8 := by
  rw [UInt32.toUInt8_and]
  exact UInt8.and_neg_one

/-- Nor does it change the index it makes. -/
theorem toNat_and_255 (x : UInt32) : (x &&& 0xFF).toNat = x.toUInt8.toNat := by
  rw [UInt32.toNat_and, UInt32.toNat_toUInt8]
  exact Nat.and_two_pow_sub_one_eq_mod x.toNat 8

/-- `PUT_UINT32_LE` writes the four bytes of the word. -/
theorem putUint32Le_eq (n : UInt32) : putUint32Le n = (word n).bytes := by
  rw [putUint32Le, toUInt8_and_255, toUInt8_and_255, toUInt8_and_255, toUInt8_and_255, word,
    byteOf_zero, byteOf_eq n (show (8 : UInt32).toNat = 8 * 1 from rfl) (by decide),
    byteOf_eq n (show (16 : UInt32).toNat = 8 * 2 from rfl) (by decide),
    byteOf_eq n (show (24 : UInt32).toNat = 8 * 3 from rfl) (by decide)]
  rfl

/-- A byte in each of the four places. -/
theorem byteOf_places (c : UInt8) {k : Nat} (hk : k < 4) :
    byteOf c.toUInt32 k = (if k = 0 then c else 0) ∧
      byteOf (c.toUInt32 <<< 8) k = (if k = 1 then c else 0) ∧
      byteOf (c.toUInt32 <<< 16) k = (if k = 2 then c else 0) ∧
      byteOf (c.toUInt32 <<< 24) k = (if k = 3 then c else 0) := by
  have h₀ := byteOf_shift c (show (0 : UInt32).toNat = 8 * 0 from rfl) (by decide) hk
  rw [UInt32.shiftLeft_zero] at h₀
  exact ⟨h₀, byteOf_shift c (show (8 : UInt32).toNat = 8 * 1 from rfl) (by decide) hk,
    byteOf_shift c (show (16 : UInt32).toNat = 8 * 2 from rfl) (by decide) hk,
    byteOf_shift c (show (24 : UInt32).toNat = 8 * 3 from rfl) (by decide) hk⟩

section Shifts

variable (c₀ c₁ c₂ c₃ : UInt8)

/-- Four bytes, each in its place. -/
theorem word_shifts :
    word (c₀.toUInt32 ||| c₁.toUInt32 <<< 8 ||| c₂.toUInt32 <<< 16 ||| c₃.toUInt32 <<< 24)
      = ⟨c₀, c₁, c₂, c₃⟩ := by
  have hbyte : ∀ k < 4, byteOf
      (c₀.toUInt32 ||| c₁.toUInt32 <<< 8 ||| c₂.toUInt32 <<< 16 ||| c₃.toUInt32 <<< 24) k
      = (if k = 0 then c₀ else 0) ||| (if k = 1 then c₁ else 0) ||| (if k = 2 then c₂ else 0)
        ||| (if k = 3 then c₃ else 0) := by
    intro k hk
    rw [byteOf_or, byteOf_or, byteOf_or, (byteOf_places c₀ hk).1, (byteOf_places c₁ hk).2.1,
      (byteOf_places c₂ hk).2.2.1, (byteOf_places c₃ hk).2.2.2]
  rw [word, hbyte 0 (by decide), hbyte 1 (by decide), hbyte 2 (by decide), hbyte 3 (by decide)]
  simp

/-- Four bytes shifted to their places make the word of these bytes. -/
theorem word_xorShifts :
    word (c₀.toUInt32 ^^^ c₁.toUInt32 <<< 8 ^^^ c₂.toUInt32 <<< 16 ^^^ c₃.toUInt32 <<< 24)
      = ⟨c₀, c₁, c₂, c₃⟩ := by
  have hbyte : ∀ k < 4, byteOf
      (c₀.toUInt32 ^^^ c₁.toUInt32 <<< 8 ^^^ c₂.toUInt32 <<< 16 ^^^ c₃.toUInt32 <<< 24) k
      = (if k = 0 then c₀ else 0) ^^^ (if k = 1 then c₁ else 0) ^^^ (if k = 2 then c₂ else 0)
        ^^^ (if k = 3 then c₃ else 0) := by
    intro k hk
    rw [byteOf_xor, byteOf_xor, byteOf_xor, (byteOf_places c₀ hk).1, (byteOf_places c₁ hk).2.1,
      (byteOf_places c₂ hk).2.2.1, (byteOf_places c₃ hk).2.2.2]
  rw [word, hbyte 0 (by decide), hbyte 1 (by decide), hbyte 2 (by decide), hbyte 3 (by decide)]
  simp

end Shifts

/-- `GET_UINT32_LE` reads the word of the four bytes. -/
theorem word_getUint32Le (b : Bytes) (i : Nat) : word (getUint32Le b i)
    = ⟨b.getD i 0, b.getD (i + 1) 0, b.getD (i + 2) 0, b.getD (i + 3) 0⟩ :=
  word_shifts _ _ _ _

/-- The bytes of a word that is rotated. -/
theorem word_rotl8 (x : UInt32) :
    word (rotl8 x) = ⟨byteOf x 3, byteOf x 0, byteOf x 1, byteOf x 2⟩ := by
  have hand : x <<< 8 &&& (0xFFFFFFFF : UInt32) = x <<< 8 := UInt32.and_neg_one
  -- Every byte of the shifted word is looked at bit by bit.
  have hleft : ∀ k, k < 3 → byteOf (x <<< 8) (k + 1) = byteOf x k := by
    intro k hk
    apply byte_ext
    intro i hi
    have hindex : 8 * (k + 1) + i - 8 = 8 * k + i := by omega
    rw [getLsbD_byteOf _ _ hi, getLsbD_byteOf _ _ hi,
      toBitVec_shiftLeft x (show (8 : UInt32).toNat = 8 from rfl) (by decide),
      BitVec.getLsbD_shiftLeft, hindex,
      decide_eq_true (show 8 * (k + 1) + i < 32 by omega),
      decide_eq_false (show ¬ 8 * (k + 1) + i < 8 by omega)]
    rfl
  have hzero : byteOf (x <<< 8) 0 = 0 := by
    apply byte_ext
    intro i hi
    rw [getLsbD_byteOf _ _ hi,
      toBitVec_shiftLeft x (show (8 : UInt32).toNat = 8 from rfl) (by decide),
      BitVec.getLsbD_shiftLeft, decide_eq_true (show 8 * 0 + i < 8 by omega)]
    simp
  have hright : ∀ k, byteOf (x >>> 24) k = if k = 0 then byteOf x 3 else 0 := by
    intro k
    apply byte_ext
    intro i hi
    rw [getLsbD_byteOf _ _ hi,
      toBitVec_shiftRight x (show (24 : UInt32).toNat = 24 from rfl) (by decide),
      BitVec.getLsbD_ushiftRight]
    by_cases hk : k = 0
    · rw [if_pos hk, getLsbD_byteOf _ _ hi, hk]
      congr 1
      omega
    · rw [if_neg hk, BitVec.getLsbD_of_ge _ _ (by omega)]
      simp
  rw [rotl8, hand, word, byteOf_or, byteOf_or, byteOf_or, byteOf_or, hright, hright, hright, hright,
    hzero, hleft 0 (by decide), hleft 1 (by decide), hleft 2 (by decide)]
  simp

/-! ### The tables -/

/-- **The generated `FSb` is the S-box of the standard.** -/
theorem fsb_eq : genTables.fsb = sboxTable := by
  decide +kernel

/-- **The generated `RCON` are the round constants of the standard.** -/
theorem rcon_eq : ∀ i < 10, word (genTables.rcon.getD i 0) = rcon (i + 1) := by
  decide +kernel

/-- An entry of a forward table is a column of MixColumns. -/
theorem word_forwardEntry (c : UInt8) :
    word (forwardEntry c) = ⟨mul 2 c, c, c, mul 3 c⟩ := by
  have h := forall_byte (p := fun c => decide (word (forwardEntry c) = ⟨mul 2 c, c, c, mul 3 c⟩))
    (by decide +kernel) c
  simpa using h

/-- An access to `FSb` is an application of the S-box. -/
theorem fsbWord_eq (x : UInt32) : fsbWord genTables x = (sbox x.toUInt8).toUInt32 := by
  rw [fsbWord, fsb_eq, toNat_and_255, sbox]

/-- An entry of a table that has been made of another one. -/
theorem lookup_map (f : UInt32 → UInt32) (hf : f 0 = 0) (table : List UInt32) (x : UInt32) :
    lookup (table.map f) x = f (lookup table x) := by
  have h := List.getD_map (l := table) (d := 0) (n := (x &&& 0xFF).toNat) f
  rw [hf] at h
  exact h

/-- **`FT0`** has the substituted bytes, in their columns mixed. -/
theorem word_ft0 (x : UInt32) : word (lookup genTables.ft0 x) =
    ⟨mul 2 (sbox x.toUInt8), sbox x.toUInt8, sbox x.toUInt8, mul 3 (sbox x.toUInt8)⟩ := by
  have hft : genTables.ft0 = sboxTable.map forwardEntry := by
    rw [← fsb_eq]
    simp only [genTables]
  have h := List.getD_map (l := sboxTable) (d := 0) (n := x.toUInt8.toNat) forwardEntry
  rw [show forwardEntry 0 = 0 from by decide, ← sbox] at h
  rw [← word_forwardEntry, ← h, lookup, toNat_and_255, hft]

/-- `FT1` is `FT0` turned by one byte. -/
theorem word_ft1 (x : UInt32) : word (lookup genTables.ft1 x) =
    ⟨mul 3 (sbox x.toUInt8), mul 2 (sbox x.toUInt8), sbox x.toUInt8, sbox x.toUInt8⟩ := by
  have hft : genTables.ft1 = genTables.ft0.map rotl8 := by simp only [genTables]
  have h := word_ft0 x
  rw [hft, lookup_map rotl8 (by decide), word_rotl8]
  rw [word, Word.mk.injEq] at h
  rw [h.1, h.2.1, h.2.2.1, h.2.2.2]

/-- `FT2` is turned by two. -/
theorem word_ft2 (x : UInt32) : word (lookup genTables.ft2 x) =
    ⟨sbox x.toUInt8, mul 3 (sbox x.toUInt8), mul 2 (sbox x.toUInt8), sbox x.toUInt8⟩ := by
  have hft : genTables.ft2 = genTables.ft1.map rotl8 := by simp only [genTables]
  have h := word_ft1 x
  rw [hft, lookup_map rotl8 (by decide), word_rotl8]
  rw [word, Word.mk.injEq] at h
  rw [h.1, h.2.1, h.2.2.1, h.2.2.2]

/-- `FT3` is turned by three. -/
theorem word_ft3 (x : UInt32) : word (lookup genTables.ft3 x) =
    ⟨sbox x.toUInt8, sbox x.toUInt8, mul 3 (sbox x.toUInt8), mul 2 (sbox x.toUInt8)⟩ := by
  have hft : genTables.ft3 = genTables.ft2.map rotl8 := by simp only [genTables]
  have h := word_ft2 x
  rw [hft, lookup_map rotl8 (by decide), word_rotl8]
  rw [word, Word.mk.injEq] at h
  rw [h.1, h.2.1, h.2.2.1, h.2.2.2]

/-! ### The rounds -/

/-- The bytes of a word, as the shifts of the source take them out. -/
theorem toUInt8_shiftRight (x : UInt32) :
    (x >>> 8).toUInt8 = byteOf x 1 ∧ (x >>> 16).toUInt8 = byteOf x 2 ∧
      (x >>> 24).toUInt8 = byteOf x 3 :=
  ⟨(byteOf_eq x (show (8 : UInt32).toNat = 8 * 1 from rfl) (by decide)).symm,
    (byteOf_eq x (show (16 : UInt32).toNat = 8 * 2 from rfl) (by decide)).symm,
    (byteOf_eq x (show (24 : UInt32).toNat = 8 * 3 from rfl) (by decide)).symm⟩

/-- A column of a round that is not the last one. -/
theorem froundWord_eq (k y0 y1 y2 y3 : UInt32) : word (froundWord genTables k y0 y1 y2 y3) =
    mixColumn (subWord ⟨byteOf y0 0, byteOf y1 1, byteOf y2 2, byteOf y3 3⟩) ^^^ word k := by
  rw [froundWord, word_xor, word_xor, word_xor, word_xor, word_ft0, word_ft1, word_ft2, word_ft3,
    (toUInt8_shiftRight y1).1, (toUInt8_shiftRight y2).2.1, (toUInt8_shiftRight y3).2.2,
    ← byteOf_zero]
  generalize word k = w
  simp only [Word.xor_eq, mixColumn, subWord, Word.mk.injEq]
  refine ⟨?_, ?_, ?_, ?_⟩ <;> ac_rfl

/-- A column of the last round. -/
theorem lastWord_eq (k y0 y1 y2 y3 : UInt32) : word (lastWord genTables k y0 y1 y2 y3) =
    subWord ⟨byteOf y0 0, byteOf y1 1, byteOf y2 2, byteOf y3 3⟩ ^^^ word k := by
  have hbytes := word_xorShifts (sbox (byteOf y0 0)) (sbox (byteOf y1 1)) (sbox (byteOf y2 2))
    (sbox (byteOf y3 3))
  rw [word_xor, word_xor, word_xor] at hbytes
  rw [lastWord, fsbWord_eq, fsbWord_eq, fsbWord_eq, fsbWord_eq, (toUInt8_shiftRight y1).1,
    (toUInt8_shiftRight y2).2.1, (toUInt8_shiftRight y3).2.2, ← byteOf_zero, word_xor, word_xor,
    word_xor, word_xor, subWord, ← hbytes, Word.xor_comm _ (word k), Word.xor_assoc,
    Word.xor_assoc, Word.xor_assoc, Word.xor_assoc, Word.xor_assoc]

/-- The state of the four words. -/
def Vars.state (x : Vars) : State := ⟨word x.x0, word x.x1, word x.x2, word x.x3⟩

/-- Word `i` of the round keys. -/
def roundWord (rk : List UInt32) (i : Nat) : Word := word (rk.getD i 0)

/-- **A round.** -/
theorem fround_eq (rk : List UInt32) (round : Nat) (y : Vars) :
    (fround genTables rk (4 * round) y).state = fullRound (roundWord rk) y.state round := by
  rw [Vars.state, fround, froundWord_eq, froundWord_eq, froundWord_eq, froundWord_eq]
  rfl

/-- **The loop**, of two rounds in a turn. -/
theorem roundLoop_eq (rk : List UInt32) (i round : Nat) (x : Vars) :
    (roundLoop genTables rk i (4 * round) x).1 = 4 * (round + 2 * i) ∧
      (roundLoop genTables rk i (4 * round) x).2.state
        = (List.range' round (2 * i)).foldl (fullRound (roundWord rk)) x.state := by
  induction i generalizing round x with
  | zero => exact ⟨rfl, rfl⟩
  | succ i ih =>
    have hfirst := fround_eq rk round x
    have hsecond := fround_eq rk (round + 1) (fround genTables rk (4 * round) x)
    obtain ⟨hRK, hstate⟩ := ih (round + 2)
      (fround genTables rk (4 * (round + 1)) (fround genTables rk (4 * round) x))
    have hloop : roundLoop genTables rk (i + 1) (4 * round) x
        = roundLoop genTables rk i (4 * (round + 2))
            (fround genTables rk (4 * (round + 1)) (fround genTables rk (4 * round) x)) := rfl
    rw [hloop, hRK, hstate, hsecond, hfirst, Nat.mul_succ, List.range'_succ, List.range'_succ]
    exact ⟨by omega, rfl⟩

/-! ### The key schedule -/

/-- What the key schedule does to the last word is RotWord and SubWord. -/
theorem word_rotatedSbox (x : UInt32) :
    word (rotatedSbox genTables x) = subWord (rotWord (word x)) := by
  rw [rotatedSbox, fsbWord_eq, fsbWord_eq, fsbWord_eq, fsbWord_eq, (toUInt8_shiftRight x).1,
    (toUInt8_shiftRight x).2.1, (toUInt8_shiftRight x).2.2, ← byteOf_zero, word_xorShifts]
  rfl

/-- The round keys of the standard are those of the code, word by word. -/
theorem getD_map_word (rk : List UInt32) (i : Nat) :
    (rk.map word).getD i default = word (rk.getD i 0) :=
  List.getD_map (l := rk) (d := 0) (n := i) word

section Blocks

variable {ws : List Word} {i : Nat}

/-- Four words from four words. -/
theorem keyExpansion_four (hws : ws.length = 4 * (i + 1)) {a b c d : Word}
    (ha : a = ws.getD (4 * i) default
      ^^^ (subWord (rotWord (ws.getD (4 * i + 3) default)) ^^^ rcon (i + 1)))
    (hb : b = ws.getD (4 * i + 1) default ^^^ a) (hc : c = ws.getD (4 * i + 2) default ^^^ b)
    (hd : d = ws.getD (4 * i + 3) default ^^^ c) :
    keyExpansion 4 ws 4 = ws ++ [a, b, c, d] := by
  refine keyExpansion_block (by decide) hws rfl fun j hj => ?_
  interval_cases j
  · exact ha
  · exact hb
  · exact hc
  · exact hd

/-- Six words from six words. -/
theorem keyExpansion_six (hws : ws.length = 6 * (i + 1)) {a b c d e f : Word}
    (ha : a = ws.getD (6 * i) default
      ^^^ (subWord (rotWord (ws.getD (6 * i + 5) default)) ^^^ rcon (i + 1)))
    (hb : b = ws.getD (6 * i + 1) default ^^^ a) (hc : c = ws.getD (6 * i + 2) default ^^^ b)
    (hd : d = ws.getD (6 * i + 3) default ^^^ c) (he : e = ws.getD (6 * i + 4) default ^^^ d)
    (hf : f = ws.getD (6 * i + 5) default ^^^ e) :
    keyExpansion 6 ws 6 = ws ++ [a, b, c, d, e, f] := by
  refine keyExpansion_block (by decide) hws rfl fun j hj => ?_
  interval_cases j
  · exact ha
  · exact hb
  · exact hc
  · exact hd
  · exact he
  · exact hf

/-- Eight words from eight words, of which the fifth one is substituted too. -/
theorem keyExpansion_eight (hws : ws.length = 8 * (i + 1)) {a b c d e f g h : Word}
    (ha : a = ws.getD (8 * i) default
      ^^^ (subWord (rotWord (ws.getD (8 * i + 7) default)) ^^^ rcon (i + 1)))
    (hb : b = ws.getD (8 * i + 1) default ^^^ a) (hc : c = ws.getD (8 * i + 2) default ^^^ b)
    (hd : d = ws.getD (8 * i + 3) default ^^^ c)
    (he : e = ws.getD (8 * i + 4) default ^^^ subWord d)
    (hf : f = ws.getD (8 * i + 5) default ^^^ e) (hg : g = ws.getD (8 * i + 6) default ^^^ f)
    (hh : h = ws.getD (8 * i + 7) default ^^^ g) :
    keyExpansion 8 ws 8 = ws ++ [a, b, c, d, e, f, g, h] := by
  refine keyExpansion_block (by decide) hws rfl fun j hj => ?_
  interval_cases j
  · exact ha
  · exact hb
  · exact hc
  · exact hd
  · exact he
  · exact hf
  · exact hg
  · exact hh

end Blocks

section Expand

variable {rk : List UInt32} {i : Nat}

/-- The first word of each block. -/
theorem word_first (hi : i < 10) (k x : UInt32) :
    word (k ^^^ genTables.rcon.getD i 0 ^^^ rotatedSbox genTables x)
      = word k ^^^ (subWord (rotWord (word x)) ^^^ rcon (i + 1)) := by
  rw [← rcon_eq i hi, ← word_rotatedSbox, word_xor, word_xor, Word.xor_assoc,
    Word.xor_comm (word (rotatedSbox _ _))]

/-- The word of a block of eight that is substituted. -/
theorem word_fifth (x : UInt32) :
    word (fsbWord genTables x ^^^ fsbWord genTables (x >>> 8) <<< 8
      ^^^ fsbWord genTables (x >>> 16) <<< 16 ^^^ fsbWord genTables (x >>> 24) <<< 24)
      = subWord (word x) := by
  rw [fsbWord_eq, fsbWord_eq, fsbWord_eq, fsbWord_eq, (toUInt8_shiftRight x).1,
    (toUInt8_shiftRight x).2.1, (toUInt8_shiftRight x).2.2, ← byteOf_zero, word_xorShifts]
  rfl

/-- **One turn of the schedule for 128 bits** makes the next four words of the standard. -/
theorem expand128_eq (hi : i < 10) (hrk : rk.length = 4 * (i + 1)) :
    (expand128 genTables rk i).map word = keyExpansion 4 (rk.map word) 4 := by
  have hws : (rk.map word).length = 4 * (i + 1) := by rw [List.length_map, hrk]
  rw [expand128, List.map_append]
  refine (keyExpansion_four hws ?_ ?_ ?_ ?_).symm
  · rw [getD_map_word, getD_map_word]
    exact word_first hi _ _
  · rw [getD_map_word, ← word_xor]
  · rw [getD_map_word, ← word_xor]
  · rw [getD_map_word, ← word_xor]

/-- For 192 bits the next six. -/
theorem expand192_eq (hi : i < 10) (hrk : rk.length = 6 * (i + 1)) :
    (expand192 genTables rk i).map word = keyExpansion 6 (rk.map word) 6 := by
  have hws : (rk.map word).length = 6 * (i + 1) := by rw [List.length_map, hrk]
  rw [expand192, List.map_append]
  refine (keyExpansion_six hws ?_ ?_ ?_ ?_ ?_ ?_).symm
  · rw [getD_map_word, getD_map_word]
    exact word_first hi _ _
  · rw [getD_map_word, ← word_xor]
  · rw [getD_map_word, ← word_xor]
  · rw [getD_map_word, ← word_xor]
  · rw [getD_map_word, ← word_xor]
  · rw [getD_map_word, ← word_xor]

/-- For 256 bits the next eight. -/
theorem expand256_eq (hi : i < 10) (hrk : rk.length = 8 * (i + 1)) :
    (expand256 genTables rk i).map word = keyExpansion 8 (rk.map word) 8 := by
  have hws : (rk.map word).length = 8 * (i + 1) := by rw [List.length_map, hrk]
  rw [expand256, List.map_append]
  refine (keyExpansion_eight hws ?_ ?_ ?_ ?_ ?_ ?_ ?_ ?_).symm
  · rw [getD_map_word, getD_map_word]
    exact word_first hi _ _
  · rw [getD_map_word, ← word_xor]
  · rw [getD_map_word, ← word_xor]
  · rw [getD_map_word, ← word_xor]
  · rw [getD_map_word, ← word_fifth, ← word_xor]
  · rw [getD_map_word, ← word_xor]
  · rw [getD_map_word, ← word_xor]
  · rw [getD_map_word, ← word_xor]

end Expand

/-- **The loop** of `mbedtls_aes_setkey_enc`, when a turn gives `nk` words. -/
theorem expandLoop_eq {nk : Nat} {expand : List UInt32 → Nat → List UInt32}
    (hexpand : ∀ {rk : List UInt32} {i : Nat}, i < 10 → rk.length = nk * (i + 1) →
      (expand rk i).map word = keyExpansion nk (rk.map word) nk)
    {first : List UInt32} (hfirst : first.length = nk) {n : Nat} (hn : n ≤ 10) :
    ((List.range n).foldl expand first).map word
      = keyExpansion nk (first.map word) (nk * n) := by
  induction n with
  | zero => rfl
  | succ n ih =>
    have hmap := ih (by omega)
    have hlength : ((List.range n).foldl expand first).length = nk * (n + 1) := by
      have h := congrArg List.length hmap
      rw [List.length_map, length_keyExpansion, List.length_map, hfirst] at h
      rw [h, Nat.mul_succ, Nat.add_comm]
    rw [List.range_succ, List.foldl_append, Nat.mul_succ, keyExpansion_add, ← hmap]
    exact hexpand (by omega) hlength

/-- The words of a key. -/
theorem map_getUint32Le {key : Bytes} {n : Nat} (hkey : key.length = 4 * n) :
    ((List.range n).map fun i => getUint32Le key (i <<< 2)).map word = words key := by
  rw [words_eq hkey, List.map_map]
  refine List.map_congr_left fun i _ => ?_
  have hshift : i <<< 2 = 4 * i := by rw [Nat.shiftLeft_eq, Nat.mul_comm]
  rw [Function.comp_apply, word_getUint32Le, hshift]

/-- The round keys, when `n` turns of the loop are enough. -/
theorem roundWord_loop {nk n : Nat} {expand : List UInt32 → Nat → List UInt32}
    (hexpand : ∀ {rk : List UInt32} {i : Nat}, i < 10 → rk.length = nk * (i + 1) →
      (expand rk i).map word = keyExpansion nk (rk.map word) nk)
    {key : Bytes} (hkey : key.length = 4 * nk) (hn : n ≤ 10) (hwords : 4 * (nk + 7) ≤ nk + nk * n) :
    ∀ i < 4 * (nk + 7), roundWord ((List.range n).foldl expand
      ((List.range nk).map fun i => getUint32Le key (i <<< 2))) i = keyWord nk key i := by
  intro i hi
  have hlength : (words key).length = nk := by
    rw [words_eq hkey, List.length_map, List.length_range]
  have hfirst : ((List.range nk).map fun i => getUint32Le key (i <<< 2)).length = nk := by simp
  have hloop := expandLoop_eq hexpand hfirst hn
  rw [map_getUint32Le hkey] at hloop
  rw [keyWord_eq key hlength hi hwords, ← hloop, getD_map_word, roundWord]

/-- **The round keys** are those of the standard. -/
theorem setkeyEnc_words {key : Bytes} {nk : Nat} (hnk : nk = 4 ∨ nk = 6 ∨ nk = 8)
    (hkey : key.length = 4 * nk) :
    ∃ ctx, setkeyEnc genTables key (8 * key.length) = some ctx ∧ ctx.nr = nk + 6 ∧
      ∀ i < 4 * (nk + 7), roundWord ctx.rk i = keyWord nk key i := by
  rw [hkey]
  obtain rfl | rfl | rfl := hnk
  · exact ⟨⟨10, (List.range 10).foldl (expand128 genTables) _⟩, rfl, rfl,
      roundWord_loop expand128_eq hkey (by decide) (by decide)⟩
  · exact ⟨⟨12, (List.range 8).foldl (expand192 genTables) _⟩, rfl, rfl,
      roundWord_loop expand192_eq hkey (by decide) (by decide)⟩
  · exact ⟨⟨14, (List.range 7).foldl (expand256 genTables) _⟩, rfl, rfl,
      roundWord_loop expand256_eq hkey (by decide) (by decide)⟩

/-- The state that the loop starts from. -/
def firstVars (rk : List UInt32) (input : Bytes) : Vars where
  x0 := getUint32Le input 0 ^^^ rk.getD 0 0
  x1 := getUint32Le input 4 ^^^ rk.getD 1 0
  x2 := getUint32Le input 8 ^^^ rk.getD 2 0
  x3 := getUint32Le input 12 ^^^ rk.getD 3 0

/-- The first key is added to the block as it is read. -/
theorem firstVars_state (rk : List UInt32) {block : Bytes} (hblock : block.length = 16) :
    (firstVars rk block).state = addRoundKey (roundWord rk) 0 (stateOf block) := by
  rw [Vars.state, firstVars, word_xor, word_xor, word_xor, word_xor, word_getUint32Le,
    word_getUint32Le, word_getUint32Le, word_getUint32Le, stateOf,
    words_eq (show block.length = 4 * 4 from hblock)]
  rfl

/-- The bytes of the last round. -/
theorem lastRound_bytes (rk : List UInt32) (round : Nat) (y : Vars) :
    putUint32Le (lastWord genTables (rk.getD (4 * round) 0) y.x0 y.x1 y.x2 y.x3) ++
        putUint32Le (lastWord genTables (rk.getD (4 * round + 1) 0) y.x1 y.x2 y.x3 y.x0) ++
        putUint32Le (lastWord genTables (rk.getD (4 * round + 2) 0) y.x2 y.x3 y.x0 y.x1) ++
        putUint32Le (lastWord genTables (rk.getD (4 * round + 3) 0) y.x3 y.x0 y.x1 y.x2)
      = (addRoundKey (roundWord rk) round (shiftRows (subBytes y.state))).bytes := by
  rw [putUint32Le_eq, putUint32Le_eq, putUint32Le_eq, putUint32Le_eq, lastWord_eq, lastWord_eq,
    lastWord_eq, lastWord_eq]
  rfl

/-- `mbedtls_internal_aes_encrypt` is its loop between the first key and the last two rounds. -/
theorem encrypt_eq (t : Tables) (ctx : Context) (block : Bytes) : encrypt t ctx block =
    let r := roundLoop t ctx.rk ((ctx.nr >>> 1) - 1) 4 (firstVars ctx.rk block)
    let y := fround t ctx.rk r.1 r.2
    putUint32Le (lastWord t (ctx.rk.getD (r.1 + 4) 0) y.x0 y.x1 y.x2 y.x3) ++
      putUint32Le (lastWord t (ctx.rk.getD (r.1 + 4 + 1) 0) y.x1 y.x2 y.x3 y.x0) ++
      putUint32Le (lastWord t (ctx.rk.getD (r.1 + 4 + 2) 0) y.x2 y.x3 y.x0 y.x1) ++
      putUint32Le (lastWord t (ctx.rk.getD (r.1 + 4 + 3) 0) y.x3 y.x0 y.x1 y.x2) := rfl

/-- Setting a key, and a block. -/
theorem encrypt_of_setkey {key : Bytes} {m : Nat} (hm : m = 1 ∨ m = 2 ∨ m = 3)
    (hkey : key.length = 4 * (2 * m + 2)) :
    ∃ ctx, setkeyEnc genTables key (8 * key.length) = some ctx ∧
      ∀ block, block.length = 16 → encrypt genTables ctx block = Fips197.encrypt key block := by
  obtain ⟨ctx, hctx, hnr, hwords⟩ := setkeyEnc_words
    (show 2 * m + 2 = 4 ∨ 2 * m + 2 = 6 ∨ 2 * m + 2 = 8 by omega) hkey
  refine ⟨ctx, hctx, fun block hblock => ?_⟩
  have hnk : key.length / 4 = 2 * m + 2 := by omega
  -- `nr / 2 - 1` turns of two rounds each leave the last two rounds.
  have hturns : (ctx.nr >>> 1) - 1 = m + 3 := by
    rw [hnr, Nat.shiftRight_eq_div_pow]
    omega
  obtain ⟨hRK, hstate⟩ := roundLoop_eq ctx.rk (m + 3) 1 (firstVars ctx.rk block)
  have hlast := fround_eq ctx.rk (1 + 2 * (m + 3))
    (roundLoop genTables ctx.rk (m + 3) (4 * 1) (firstVars ctx.rk block)).2
  have hnext : 4 * (1 + 2 * (m + 3)) + 4 = 4 * (2 * m + 8) := by omega
  have hcount : 2 * m + 2 + 5 = 2 * (m + 3) + 1 := by omega
  -- Round by round both sides add the same round keys.
  rw [encrypt_eq, hturns]
  dsimp only
  rw [hRK, hnext, lastRound_bytes, hlast, hstate, firstVars_state _ hblock, Fips197.encrypt, hnk,
    hcount, ← cipher_congr (w := roundWord ctx.rk) fun i hi => hwords i (by omega), cipher,
    List.range'_concat, List.foldl_append, Nat.one_mul]
  rfl

/-- **`aes.c` is AES**: a key of 128, 192 or 256 bits is taken and no other one, and every block is
    encrypted as the standard has it. -/
theorem encrypt_standard (key : Bytes) (keybits : Nat) (hkey : keybits = 8 * key.length) :
    (setkeyEnc genTables key keybits = none ∧ keybits ≠ 128 ∧ keybits ≠ 192 ∧ keybits ≠ 256) ∨
      ∃ ctx, setkeyEnc genTables key keybits = some ctx ∧
        ∀ block, block.length = 16 →
          encrypt genTables ctx block = Fips197.encrypt key block := by
  by_cases h₁ : keybits = 128
  · exact .inr (hkey ▸ encrypt_of_setkey (.inl rfl) (show key.length = 4 * (2 * 1 + 2) by omega))
  by_cases h₂ : keybits = 192
  · exact .inr (hkey ▸
      encrypt_of_setkey (.inr (.inl rfl)) (show key.length = 4 * (2 * 2 + 2) by omega))
  by_cases h₃ : keybits = 256
  · exact .inr (hkey ▸
      encrypt_of_setkey (.inr (.inr rfl)) (show key.length = 4 * (2 * 3 + 2) by omega))
  · refine .inl ⟨?_, h₁, h₂, h₃⟩
    rw [setkeyEnc, if_neg h₁, if_neg h₂, if_neg h₃]

/-- The block of the standard's appendix, under its key of 128 bits. -/
theorem encrypt_standard_appendix :
    ∃ ctx, setkeyEnc genTables ((List.range 16).map UInt8.ofNat) 128 = some ctx ∧
      encrypt genTables ctx ((List.range 16).map fun k => .ofNat (17 * k))
        = Fips197.encrypt ((List.range 16).map UInt8.ofNat)
          ((List.range 16).map fun k => .ofNat (17 * k)) := by
  obtain ⟨-, h, -⟩ | ⟨ctx, hctx, henc⟩ :=
    encrypt_standard ((List.range 16).map UInt8.ofNat) 128 rfl
  · exact absurd rfl h
  · exact ⟨ctx, hctx, henc _ rfl⟩

/-! ### The block cipher of GCM -/

/-- AES with a key of 128 bits, on the bits of a block. -/
def standard128 (key : Block) (v : BitVec 128) : BitVec 128 :=
  Sp80038d.ofBytes (Fips197.encrypt key.toList (Sp80038d.toBytes v))

/-- As a block cipher of 128 bits it is the one of the standard. -/
theorem bits_aes128 (key block : Block) :
    (aes128 key block).bits = Sp80038d.ofBytes (Fips197.encrypt key.toList block.toList) := by
  obtain ⟨ctx, hctx, henc⟩ := encrypt_of_setkey (.inl rfl) key.length_toList
  have hblock := henc block.toList block.length_toList
  rw [key.length_toList] at hctx
  apply Sp80038d.block_ext
  intro k hk
  rw [Block.byteAt_bits _ hk, Sp80038d.byteAt_ofBytes _ hk, ← hblock]
  simp only [aes128, show setkeyEnc genTables key.toList 128 = some ctx from hctx]
  rw [Vector.getElem_ofFn]

/-- With these functions, the block cipher of GCM is AES. -/
theorem ciph_aes128 (key : Block) : Gcm.ciph ⟨aes128, Gcm.tableMult⟩ key = standard128 key := by
  funext v
  have hbytes : (Block.ofBits v).toList = Sp80038d.toBytes v := by
    rw [← Block.toBytes_bits, Block.bits_ofBits]
  show (aes128 key (Block.ofBits v)).bits = _
  rw [bits_aes128, hbytes, standard128]

end Aes

end Icl.Security
