import Icl.Security.Sha1Rounds

namespace Icl.Security

open Icl.Cxx Icl.Format Icl.Transition

/-!
# `Sha1`, from `Update` to `Final`

`Update` reads its stream until a read fails, `Transform` leaves the words of the schedule in the
block, and `Final` writes over some of these words.

* `takeIn`, `update_eq` — what an object has taken in is its digest of whole blocks, and what
  is pending;
* `hash_finalDigest` — the padding, in one block or in two;
* `sha1_parts` — any parts of a message give the digest of FIPS 180-4.
-/

namespace Sha1

/-! ### One block -/

/-- A block of sixteen words is compressed as the standard says. -/
theorem transform_hash (s : Sha1) {block : List UInt32} (hlen : block.length = 16) :
    (s.transform block).1.digest.hash = Fips180.compress160 s.digest.hash block := by
  have hrounds := hash_rounds hlen s.digest
  unfold transform Fips180.compress160
  dsimp only
  rw [runCalls_eq, ← hrounds]
  unfold Digest.hash
  dsimp only
  simp only [UInt32.add_comm]

/-- Four bytes, put together. -/
theorem ofNat_valueLe (c₀ c₁ c₂ c₃ : UInt8) :
    c₃.toUInt32 ||| c₂.toUInt32 <<< 8 ||| c₁.toUInt32 <<< 16 ||| c₀.toUInt32 <<< 24
      = UInt32.ofNat (valueLe [c₃, c₂, c₁, c₀]) := by
  -- The bytes do not overlap, so putting them together is adding them.
  have hor : ∀ {a b i : Nat}, a < 2 ^ i → a ||| b <<< i = b <<< i + a := by
    intro a b i ha
    rw [Nat.or_comm, Nat.shiftLeft_add_eq_or_of_lt ha]
  have h₀ := c₀.toNat_lt
  have h₁ := c₁.toNat_lt
  have h₂ := c₂.toNat_lt
  have h₃ := c₃.toNat_lt
  have hshift : ∀ (c : UInt8) (k : UInt32), k.toNat ≤ 24 →
      (c.toUInt32 <<< k).toNat = c.toNat <<< k.toNat := by
    intro c k hk
    have hc := c.toNat_lt
    have hpow : (2 : Nat) ^ k.toNat ≤ 2 ^ 24 := Nat.pow_le_pow_right (by decide) hk
    rw [UInt32.toNat_shiftLeft, UInt8.toNat_toUInt32, Nat.mod_eq_of_lt (show k.toNat < 32 by omega),
      Nat.mod_eq_of_lt]
    rw [Nat.shiftLeft_eq]
    calc c.toNat * 2 ^ k.toNat < 2 ^ 8 * 2 ^ 24 := Nat.mul_lt_mul_of_lt_of_le hc hpow (by decide)
      _ = 2 ^ 32 := by decide
  apply UInt32.toNat_inj.mp
  rw [UInt32.toNat_or, UInt32.toNat_or, UInt32.toNat_or, hshift _ 8 (by decide),
    hshift _ 16 (by decide), hshift _ 24 (by decide), UInt8.toNat_toUInt32, UInt32.toNat_ofNat']
  show c₃.toNat ||| c₂.toNat <<< 8 ||| c₁.toNat <<< 16 ||| c₀.toNat <<< 24 = _
  rw [hor (i := 8) (by omega), hor (i := 16) (by omega), hor (i := 24) (by omega)]
  simp only [Nat.shiftLeft_eq, valueLe_cons, valueLe_nil]
  omega

/-- `buffer_to_block` reads the sixteen words of the standard, most significant byte first. -/
theorem bufferToBlock_eq {buffer : Bytes} (hlen : buffer.length = 64) :
    bufferToBlock buffer = Fips180.words buffer := by
  have hwords : ∀ n (text : Bytes), text.length = 4 * n →
      (List.range n).map (fun i =>
        (text.getD (4 * i + 3) 0).toUInt32 ||| (text.getD (4 * i + 2) 0).toUInt32 <<< 8
          ||| (text.getD (4 * i + 1) 0).toUInt32 <<< 16 ||| (text.getD (4 * i) 0).toUInt32 <<< 24)
        = Fips180.words text := by
    intro n
    induction n with
    | zero =>
      intro text h
      obtain rfl := List.length_eq_zero_iff.mp h
      rfl
    | succ n ih =>
      intro text h
      -- The first four bytes make the first word, and the others follow.
      match text, h with
      | c₀ :: c₁ :: c₂ :: c₃ :: rest, h =>
        simp only [List.length_cons] at h
        rw [List.range_succ_eq_map, List.map_cons, List.map_map, Fips180.words,
          ← ih rest (by omega), ← ofNat_valueLe]
        rfl
  exact hwords 16 buffer hlen

/-- A block of bytes, compressed. -/
def compressBytes (h : Fips180.Hash160) (block : Bytes) : Fips180.Hash160 :=
  Fips180.compress160 h (Fips180.words block)

/-! ### What an object has taken in -/

end Sha1

/-- The digest, from the hash value of the standard. -/
def Digest.ofHash (h : Fips180.Hash160) : Digest := ⟨h.a, h.b, h.c, h.d, h.e⟩

@[simp] theorem Digest.hash_ofHash (h : Fips180.Hash160) : (Digest.ofHash h).hash = h := rfl

@[simp] theorem Digest.ofHash_hash (d : Digest) : Digest.ofHash d.hash = d := rfl

namespace Sha1

/-- An object that has taken in a text: the whole blocks are in the digest, the rest is pending. -/
def takeIn (s : Sha1) (text : Bytes) : Sha1 where
  digest := .ofHash (foldBlocks 64 compressBytes s.digest.hash (s.buffer ++ text))
  buffer := pending 64 (s.buffer ++ text)
  transforms := s.transforms + (s.buffer ++ text).length / 64

/-- Less than a block is left in the buffer. -/
theorem length_buffer_takeIn (s : Sha1) (text : Bytes) : (s.takeIn text).buffer.length < 64 := by
  show (pending 64 (s.buffer ++ text)).length < 64
  rw [length_pending]
  exact Nat.mod_lt _ (by omega)

/-- Taking in nothing changes nothing. -/
theorem takeIn_nil {s : Sha1} (h : s.buffer.length < 64) : s.takeIn [] = s := by
  unfold takeIn
  rw [List.append_nil, foldBlocks_of_lt h, pending_of_lt h, Nat.div_eq_of_lt h, Digest.ofHash_hash]
  rfl

/-- **One text after another.** -/
theorem takeIn_takeIn (s : Sha1) (first second : Bytes) :
    (s.takeIn first).takeIn second = s.takeIn (first ++ second) := by
  have hn : 0 < 64 := by omega
  unfold takeIn
  dsimp only
  rw [← List.append_assoc, foldBlocks_append hn _ (s.buffer ++ first) second,
    pending_append hn (s.buffer ++ first) second, blocks_append hn (s.buffer ++ first) second,
    Digest.hash_ofHash, Nat.add_assoc]

/-- What is pending stands in front. -/
theorem takeIn_buffer (s : Sha1) (buffer text : Bytes) :
    { s with buffer }.takeIn text = { s with buffer := [] }.takeIn (buffer ++ text) := rfl

/-- A text of which the front is pending already. -/
theorem takeIn_piece (s : Sha1) (front text : Bytes) :
    { s with buffer := s.buffer ++ front }.takeIn text = s.takeIn (front ++ text) := by
  rw [takeIn_buffer, List.append_assoc, ← takeIn_buffer]

/-- A text that fills no block stays pending. -/
theorem takeIn_short {s : Sha1} {text : Bytes} (h : (s.buffer ++ text).length < 64) :
    s.takeIn text = { s with buffer := s.buffer ++ text } := by
  rw [← takeIn_nil (s := { s with buffer := s.buffer ++ text }) h, takeIn_piece, List.append_nil]

/-- A full buffer is a block. -/
theorem takeIn_full {s : Sha1} (h : s.buffer.length = 64) (text : Bytes) :
    s.takeIn text
      = { (s.transform (bufferToBlock s.buffer)).1 with buffer := [] }.takeIn text := by
  -- `Transform` adds one to the number of blocks, as a block in front of the text does.
  have hn : 0 < 64 := by omega
  have hwords : bufferToBlock s.buffer = Fips180.words s.buffer := bufferToBlock_eq h
  have hlen : (Fips180.words s.buffer).length = 16 := Fips180.length_words h
  unfold takeIn
  rw [foldBlocks_block hn h, pending_block hn h, length_block_append hn h, hwords]
  dsimp only
  rw [transform_hash s hlen, List.nil_append, Nat.add_comm (text.length / 64), ← Nat.add_assoc]
  rfl

/-! ### `Update` takes a text in -/

/-- A read that fails ends the loop. -/
theorem updateTurn_stop (s : Sha1) {is : IStringStream} (h : is.fail = true) :
    updateTurn (s, is) = .ok (.stop s) := by
  unfold updateTurn
  exact if_pos h

/-- A read that does not fail hands the block over and fills the buffer again. -/
theorem updateTurn_next (s : Sha1) {is : IStringStream} (h : is.fail = false) {buffer : Bytes}
    {is' : IStringStream} (hread : is.read 64 = (buffer, is')) :
    updateTurn (s, is)
      = .ok (.next ({ (s.transform (bufferToBlock s.buffer)).1 with buffer }, is')) := by
  have hfail : ¬ is.fail = true := by rw [h]; decide
  unfold updateTurn
  dsimp only
  rw [if_neg hfail, show blockBytes = 64 from rfl, hread]

/-- From the head of the loop on, with a full buffer. -/
theorem loop_reading {s : Sha1} (hfull : s.buffer.length = 64) (rest : Bytes) (pos : Nat)
    {fuel : Nat} (hfuel : rest.length + 1 < fuel) :
    loop updateTurn fuel (s, .reading rest pos) = .ok (s.takeIn rest) := by
  induction fuel generalizing s rest pos with
  | zero => omega
  | succ fuel ih =>
    rw [takeIn_full hfull]
    by_cases hmore : 64 ≤ rest.length
    · -- The read is a full one, and the loop goes on.
      have htake : (rest.take 64).length = 64 := List.length_take_of_le hmore
      have hdrop : (rest.drop 64).length + 1 < fuel := by
        rw [List.length_drop]
        omega
      rw [loop_next (updateTurn_next s rfl (IStringStream.read_of_le hmore pos)),
        ih htake _ _ hdrop, takeIn_buffer, List.take_append_drop]
    · -- The read meets the end of the stream; what it has read stays in `buffer`.
      obtain ⟨fuel, rfl⟩ : ∃ f, fuel = f + 1 := ⟨fuel - 1, by omega⟩
      have hshort : rest.length < 64 := by omega
      rw [loop_next (updateTurn_next s rfl (IStringStream.read_of_lt hshort pos)),
        loop_stop (updateTurn_stop _ rfl), takeIn_short (by exact hshort)]
      rfl

/-- **`Update` takes a text in.** -/
theorem update_eq {s : Sha1} (h : s.buffer.length < 64) (text : Bytes) :
    update s text = .ok (s.takeIn text) := by
  unfold update
  rw [show blockBytes = 64 from rfl, show IStringStream.ofString text = .reading text 0 from rfl]
  -- Either the new text fills the block, or it only adds to the buffer.
  by_cases hmore : 64 - s.buffer.length ≤ text.length
  · have hfull : (s.buffer ++ text.take (64 - s.buffer.length)).length = 64 := by
      rw [List.length_append, List.length_take_of_le hmore]
      omega
    have hdrop : (text.drop (64 - s.buffer.length)).length + 1 < text.length + 2 := by
      rw [List.length_drop]
      omega
    rw [IStringStream.read_of_le hmore]
    dsimp only
    rw [loop_reading hfull _ _ hdrop, takeIn_piece, List.take_append_drop]
  · have hshort : (s.buffer ++ text).length < 64 := by
      rw [List.length_append]
      omega
    rw [IStringStream.read_of_lt (by omega)]
    dsimp only
    rw [loop_stop (updateTurn_stop _ rfl), takeIn_short hshort]

/-! ### The final blocks -/

/-- A word keeps the number modulo 2^32. -/
theorem ofNat_congr {x y : Nat} (h : x % 2 ^ 32 = y % 2 ^ 32) :
    UInt32.ofNat x = UInt32.ofNat y := by
  apply UInt32.toNat_inj.mp
  rw [UInt32.toNat_ofNat', UInt32.toNat_ofNat', h]

/-- The two words of a length. -/
theorem words_bytesBe (v : Nat) :
    Fips180.words (bytesBe 8 v) = [UInt32.ofNat (v / 2 ^ 32), UInt32.ofNat v] := by
  simp only [bytesBe_succ, Nat.div_div_eq_div_mul]
  show [UInt32.ofNat (valueLe _), UInt32.ofNat (valueLe _)] = _
  simp only [valueLe_cons, valueLe_nil, UInt8.toNat_ofNat']
  refine congrArg₂ (fun high low : UInt32 => [high, low]) (ofNat_congr ?_) (ofNat_congr ?_)
  · omega
  · omega

/-- The rounds write the block in place. -/
theorem length_block_rounds (n : Nat) (s : Working) :
    ((List.range n).foldl round s).2.length = s.2.length := by
  induction n with
  | zero => rfl
  | succ n ih =>
    rw [List.range_succ, List.foldl_append, ← ih]
    show (blockFor n _).length = _
    unfold blockFor
    by_cases h₁₆ : n < 16
    · rw [if_pos h₁₆]
    · rw [if_neg h₁₆, blk, List.length_set]

/-- So `transform` leaves it its length. -/
theorem length_block_transform (s : Sha1) (block : List UInt32) :
    (s.transform block).2.length = block.length := by
  show (runCalls (s.digest, block)).2.length = _
  rw [runCalls_eq, length_block_rounds]

/-- Clearing the first words leaves the others as they are. -/
theorem clearWords_eq {block : List UInt32} {n : Nat} (hn : n ≤ block.length) :
    clearWords block n = List.replicate n 0 ++ block.drop n := by
  induction n with
  | zero => rfl
  | succ n ih =>
    have hlength : (List.replicate n (0 : UInt32)).length = n := List.length_replicate
    have hstep : clearWords block (n + 1) = (clearWords block n).set n 0 := by
      rw [clearWords, List.range_succ, List.foldl_append]
      rfl
    rw [hstep, ih (by omega), List.set_append_right _ _ hlength.le, hlength, Nat.sub_self,
      List.drop_eq_getElem_cons hn, List.set_cons_zero, List.replicate_succ', List.append_assoc]
    rfl

/-- The last two words of a block. -/
theorem set_last {ws : List UInt32} (hws : ws.length = 14) {last : List UInt32}
    (hlast : last.length = 2) (high low : UInt32) :
    ((ws ++ last).set 15 low).set 14 high = ws ++ [high, low] := by
  obtain ⟨x, y, rfl⟩ := List.length_eq_two.mp hlast
  rw [List.set_append_right _ _ (by omega), List.set_append_right _ _ (by omega), hws]
  rfl

/-- The bytes that follow the pending ones: a one bit, zero bits, and the length. -/
def padding (s : Sha1) : Bytes :=
  0x80 :: (List.replicate (Fips180.zeros s.buffer.length) 0
    ++ bytesBe 8 ((s.transforms * 64 + s.buffer.length) * 8))

/-- What `Final` writes into the last two words. -/
theorem lengthWords_eq (v : Nat) :
    [UInt32.ofNat (v % 2 ^ 64 / 2 ^ 32), UInt32.ofNat (v % 2 ^ 64)]
      = Fips180.words (bytesBe 8 v) := by
  rw [words_bytesBe]
  refine congrArg₂ (fun high low : UInt32 => [high, low]) (ofNat_congr ?_) (ofNat_congr ?_)
  · omega
  · omega

/-- `buffer`, filled up with zeros. -/
def padded (s : Sha1) : Bytes :=
  s.buffer ++ [0x80] ++ List.replicate (blockBytes - (s.buffer ++ [0x80]).length) 0

/-- A block, with the length in its last two words. -/
def withLength (s : Sha1) (block : List UInt32) : List UInt32 :=
  let totalBits := (s.transforms * 64 + s.buffer.length) * 8 % 2 ^ 64
  (block.set 15 (UInt32.ofNat totalBits)).set 14 (UInt32.ofNat (totalBits / 2 ^ 32))

/-- Whether the length has room behind the pending bytes. -/
theorem origSize_gt (s : Sha1) : (s.buffer ++ [0x80]).length > 64 - 8 ↔ 55 < s.buffer.length := by
  rw [List.length_append, List.length_singleton]
  omega

/-- Up to 55 bytes the length still fits the block of the mark. -/
theorem finalDigest_short {s : Sha1} (h : s.buffer.length ≤ 55) :
    s.finalDigest = (s.transform (s.withLength (bufferToBlock s.padded))).1.digest := by
  unfold finalDigest padded withLength
  dsimp only
  rw [show blockBytes = 64 from rfl, show blockInts = 16 from rfl,
    if_neg ((origSize_gt s).not.mpr (by omega))]

/-- From 56 bytes on it comes in a block of its own, cleared before. -/
theorem finalDigest_long {s : Sha1} (h : 55 < s.buffer.length) :
    s.finalDigest
      = ((s.transform (bufferToBlock s.padded)).1.transform
          (s.withLength
            (clearWords (s.transform (bufferToBlock s.padded)).2 14))).1.digest := by
  unfold finalDigest padded withLength
  dsimp only
  rw [show blockBytes = 64 from rfl, show blockInts = 16 from rfl, if_pos ((origSize_gt s).mpr h)]

/-- A block that the length ends. -/
theorem withLength_eq (s : Sha1) {front : Bytes} (hfront : front.length = 4 * 14)
    {last : List UInt32} (hlast : last.length = 2) :
    s.withLength (Fips180.words front ++ last)
      = Fips180.words (front ++ bytesBe 8 ((s.transforms * 64 + s.buffer.length) * 8)) := by
  rw [withLength, set_last (Fips180.length_words hfront) hlast, lengthWords_eq,
    Fips180.words_append hfront]

/-- The pending bytes leave room for the length. -/
theorem hash_finalDigest_short {s : Sha1} (h : s.buffer.length ≤ 55) :
    s.finalDigest.hash = foldBlocks 64 compressBytes s.digest.hash (s.buffer ++ s.padding) := by
  have hn : 0 < 64 := by omega
  obtain ⟨front, hfront⟩ :
      ∃ front, front = s.buffer ++ 0x80 :: List.replicate (55 - s.buffer.length) 0 := ⟨_, rfl⟩
  have hlength : front.length = 4 * 14 := by
    rw [hfront, List.length_append, List.length_cons, List.length_replicate]
    omega
  have hpadded : s.padded = front ++ List.replicate (4 * 2) 0 := by
    rw [hfront, padded, List.length_append, List.length_singleton, show blockBytes = 64 from rfl,
      show 64 - (s.buffer.length + 1) = 55 - s.buffer.length + 4 * 2 by omega, List.replicate_add]
    simp only [List.append_assoc, List.cons_append, List.nil_append]
  -- The last eight of the zeros are those that the length is written over.
  have hpadding : s.buffer ++ s.padding
      = (front ++ bytesBe 8 ((s.transforms * 64 + s.buffer.length) * 8)) ++ [] := by
    rw [hfront, padding, Fips180.zeros,
      show (119 - s.buffer.length % 64) % 64 = 55 - s.buffer.length by omega]
    simp only [List.append_assoc, List.cons_append, List.append_nil]
  have hblock : (front ++ bytesBe 8 ((s.transforms * 64 + s.buffer.length) * 8)).length = 64 := by
    rw [List.length_append, hlength, length_bytesBe]
  have hfull : (front ++ List.replicate (4 * 2) (0 : UInt8)).length = 64 := by
    rw [List.length_append, hlength, List.length_replicate]
  rw [hpadding, foldBlocks_block hn hblock, foldBlocks_of_lt hn, finalDigest_short h, hpadded,
    bufferToBlock_eq hfull, Fips180.words_append hlength, Fips180.words_replicate_zero,
    withLength_eq s hlength List.length_replicate,
    transform_hash s (Fips180.length_words hblock), compressBytes]

/-- The length is in a block of its own. -/
theorem hash_finalDigest_long {s : Sha1} (h₅₅ : 55 < s.buffer.length) (h₆₄ : s.buffer.length < 64) :
    s.finalDigest.hash = foldBlocks 64 compressBytes s.digest.hash (s.buffer ++ s.padding) := by
  have hn : 0 < 64 := by omega
  have hpadded : s.padded = s.buffer ++ 0x80 :: List.replicate (63 - s.buffer.length) 0 := by
    rw [padded, List.length_append, List.length_singleton, show blockBytes = 64 from rfl,
      show 64 - (s.buffer.length + 1) = 63 - s.buffer.length by omega, List.append_assoc]
    rfl
  have hlength : s.padded.length = 64 := by
    rw [hpadded, List.length_append, List.length_cons, List.length_replicate]
    omega
  have hzeros : (List.replicate (4 * 14) (0 : UInt8)).length = 4 * 14 := List.length_replicate
  have hpadding : s.buffer ++ s.padding = s.padded ++ ((List.replicate (4 * 14) 0
      ++ bytesBe 8 ((s.transforms * 64 + s.buffer.length) * 8)) ++ []) := by
    rw [hpadded, padding, Fips180.zeros, show (119 - s.buffer.length % 64) % 64
      = 63 - s.buffer.length + 4 * 14 by omega, List.replicate_add]
    simp only [List.append_assoc, List.cons_append, List.append_nil]
  have hblock : (List.replicate (4 * 14) 0
      ++ bytesBe 8 ((s.transforms * 64 + s.buffer.length) * 8)).length = 64 := by
    rw [List.length_append, hzeros, length_bytesBe]
  have hwords : (bufferToBlock s.padded).length = 16 := by
    rw [bufferToBlock_eq hlength, Fips180.length_words (n := 16) hlength]
  -- The words of the schedule are still in the block.
  have hleft : (s.transform (bufferToBlock s.padded)).2.length = 16 := by
    rw [length_block_transform, hwords]
  have hdrop : ((s.transform (bufferToBlock s.padded)).2.drop 14).length = 2 := by
    rw [List.length_drop, hleft]
  rw [hpadding, foldBlocks_block hn hlength, foldBlocks_block hn hblock, foldBlocks_of_lt hn,
    finalDigest_long h₅₅, clearWords_eq (by omega), ← Fips180.words_replicate_zero,
    withLength_eq s hzeros hdrop, transform_hash _ (Fips180.length_words hblock),
    transform_hash s hwords, bufferToBlock_eq hlength, compressBytes, compressBytes]

/-- **The padding**, in one block or in two. -/
theorem hash_finalDigest {s : Sha1} (h : s.buffer.length < 64) :
    s.finalDigest.hash = foldBlocks 64 compressBytes s.digest.hash (s.buffer ++ s.padding) := by
  by_cases hshort : s.buffer.length ≤ 55
  · exact hash_finalDigest_short hshort
  · exact hash_finalDigest_long (by omega) h

/-! ### The digest as a text -/

/-- The bytes of a word, one by one. -/
theorem bytesBe_word (data : UInt32) :
    bytesBe 4 data.toNat
      = [UInt8.ofNat (data.toNat / (256 * 256 * 256)), UInt8.ofNat (data.toNat / (256 * 256)),
          UInt8.ofNat (data.toNat / 256), UInt8.ofNat data.toNat] := by
  rw [bytesBe_succ, bytesBe_succ, bytesBe_succ, bytesBe_succ]
  simp only [Nat.div_div_eq_div_mul]
  rfl

/-- A byte under its mask. -/
theorem maskedByte_eq (data mask pos : UInt32) {d : Nat} (hpos : pos.toNat < 32)
    (hmask : ∀ i < 8, mask.toNat.testBit (pos.toNat + i) = true) (hd : 2 ^ pos.toNat = d) :
    ((data &&& mask) >>> pos).toUInt8 = UInt8.ofNat (data.toNat / d) := by
  apply UInt8.toNat_inj.mp
  rw [UInt32.toNat_toUInt8, UInt32.toNat_shiftRight, UInt32.toNat_and, UInt8.toNat_ofNat',
    Nat.mod_eq_of_lt hpos, ← hd, ← Nat.shiftRight_eq_div_pow]
  apply Nat.eq_of_testBit_eq
  intro i
  rw [Nat.testBit_mod_two_pow, Nat.testBit_mod_two_pow, Nat.testBit_shiftRight,
    Nat.testBit_shiftRight, Nat.testBit_and]
  -- Only the eight lowest bits stay, and these the mask lets pass.
  by_cases hi : i < 8
  · rw [hmask i hi, Bool.and_true]
  · rw [decide_eq_false hi, Bool.false_and, Bool.false_and]

/-- The masks and shifts take out the four bytes of a word, most significant first. -/
theorem maskedBytes_eq (data : UInt32) : maskedBytes data = bytesBe 4 data.toNat := by
  have h₂₄ := maskedByte_eq data 0xFF000000 24 (d := 256 * 256 * 256) (by decide) (by decide) rfl
  have h₁₆ := maskedByte_eq data 0x00FF0000 16 (d := 256 * 256) (by decide) (by decide) rfl
  have h₈ := maskedByte_eq data 0x0000FF00 8 (d := 256) (by decide) (by decide) rfl
  have h₀ := maskedByte_eq data 0x000000FF 0 (d := 1) (by decide) (by decide) rfl
  show [((data &&& 0xFF000000) >>> 24).toUInt8, ((data &&& 0x00FF0000) >>> 16).toUInt8,
    ((data &&& 0x0000FF00) >>> 8).toUInt8, ((data &&& 0x000000FF) >>> 0).toUInt8] = _
  rw [h₂₄, h₁₆, h₈, h₀, Nat.div_one, bytesBe_word]

/-- A word in hexadecimal is its bytes in hexadecimal. -/
theorem hexWord_eq (data : UInt32) : hexWord data = hexOf (bytesBe 4 data.toNat) :=
  printHex_eq (n := 4) (by decide) data.toNat_lt

/-- What `Final` returns, from its words. -/
theorem final_eq (s : Sha1) (asciiForm : Bool) :
    s.final asciiForm
      = (if asciiForm then hexOf s.finalDigest.hash.bytes else s.finalDigest.hash.bytes,
          reset) := by
  have hbytes : ∀ ws : List UInt32, ws.flatMap maskedBytes = Fips180.bytesOf ws := fun ws =>
    List.flatMap_congr fun w _ => maskedBytes_eq w
  have hhex : ∀ ws : List UInt32, ws.flatMap hexWord = hexOf (Fips180.bytesOf ws) := by
    intro ws
    rw [Fips180.bytesOf, hexOf, List.flatMap_assoc]
    exact List.flatMap_congr fun w _ => hexWord_eq w
  unfold final
  dsimp only
  rw [hbytes, hhex]
  rfl

/-- The bytes of a word, by shifting it. -/
theorem shiftedBytes_eq (data : UInt32) :
    [(data >>> 24).toUInt8, (data >>> 16).toUInt8, (data >>> 8).toUInt8, data.toUInt8]
      = bytesBe 4 data.toNat := by
  have hbyte : ∀ (pos : UInt32) (d : Nat), pos.toNat < 32 → 2 ^ pos.toNat = d →
      (data >>> pos).toUInt8 = UInt8.ofNat (data.toNat / d) := by
    intro pos d hpos hd
    apply UInt8.toNat_inj.mp
    rw [UInt32.toNat_toUInt8, UInt32.toNat_shiftRight, Nat.mod_eq_of_lt hpos, UInt8.toNat_ofNat',
      Nat.shiftRight_eq_div_pow, hd]
  have hlast : data.toUInt8 = UInt8.ofNat data.toNat := by
    apply UInt8.toNat_inj.mp
    rw [UInt32.toNat_toUInt8, UInt8.toNat_ofNat']
  rw [hbyte 24 (256 * 256 * 256) (by decide) rfl, hbyte 16 (256 * 256) (by decide) rfl,
    hbyte 8 256 (by decide) rfl, hlast, bytesBe_word]

/-! ### From `Update` to `Final` -/

/-- The calls of `Update`, one after the other. -/
def updateAll (s : Sha1) (parts : List Bytes) : Except Fault Sha1 := parts.foldlM update s

/-- A run of `Update` takes the texts in. -/
theorem updateAll_eq {s : Sha1} (h : s.buffer.length < 64) (parts : List Bytes) :
    updateAll s parts = .ok (s.takeIn parts.flatten) := by
  unfold updateAll
  induction parts generalizing s with
  | nil =>
    rw [List.flatten_nil, takeIn_nil h]
    rfl
  | cons text parts ih =>
    rw [List.foldlM_cons, update_eq h, ok_bind, ih (length_buffer_takeIn s text),
      takeIn_takeIn, List.flatten_cons]

/-- What has been taken in is padded as the standard pads a message. -/
theorem padding_takeIn (message : Bytes) :
    message ++ (reset.takeIn message).padding = Fips180.pad message := by
  have hlength : (reset.takeIn message).buffer.length = message.length % 64 :=
    length_pending 64 message
  have htransforms : (reset.takeIn message).transforms = message.length / 64 := Nat.zero_add _
  -- The blocks that have been counted, and the bytes that are pending, are the message.
  have hbits : (message.length / 64 * 64 + message.length % 64) * 8 = 8 * message.length := by
    omega
  rw [padding, hlength, htransforms, hbits, Fips180.pad, Fips180.zeros, Fips180.zeros, Nat.mod_mod]

/-- The digest of the standard. -/
theorem hash_finalDigest_takeIn (message : Bytes) :
    (reset.takeIn message).finalDigest.hash.bytes = Fips180.sha1 message := by
  have hn : 0 < 64 := by omega
  have hdigest : (reset.takeIn message).digest.hash
      = foldBlocks 64 compressBytes reset.digest.hash message := rfl
  have hbuffer : (reset.takeIn message).buffer = pending 64 message := rfl
  have hpad := foldBlocks_append (f := compressBytes) hn reset.digest.hash message
    (reset.takeIn message).padding
  rw [padding_takeIn] at hpad
  rw [hash_finalDigest (length_buffer_takeIn reset message), hdigest, hbuffer, ← hpad]
  rfl

/-- A text of one part. -/
theorem final_update (text : Bytes) :
    ∃ s, reset.update text = .ok s ∧ (s.final false).1 = Fips180.sha1 text := by
  refine ⟨_, update_eq (by decide) text, ?_⟩
  rw [final_eq]
  exact hash_finalDigest_takeIn text

/-- **Any parts of a message give the digest of FIPS 180-4**, as bytes and in hexadecimal, and leave
    a new object. -/
theorem sha1_parts (parts : List Bytes) :
    ∃ s, updateAll reset parts = .ok s ∧
      s.final false = (Fips180.sha1 parts.flatten, reset) ∧
      s.final true = (hexOf (Fips180.sha1 parts.flatten), reset) ∧
      (Fips180.sha1 parts.flatten).length = 20 := by
  refine ⟨_, updateAll_eq (by decide) parts, ?_, ?_, Fips180.length_sha1 _⟩
  · rw [final_eq, hash_finalDigest_takeIn]
    rfl
  · rw [final_eq, hash_finalDigest_takeIn]
    rfl

end Sha1

end Icl.Security
