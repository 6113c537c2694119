import Icl.Security.GcmTables

namespace Icl.Security

open Icl.Cxx Icl.Format

/-!
# `gcm.c` and the standard

The functions of `gcm.c` are GCM of NIST SP 800-38D, for every block cipher, with the tables for the
multiplication.

* `bits_incrementLoop` — the counter;
* `bits_addLoop`, `updateAll_standard` — GHASH and GCTR, block by block;
* `cryptAndTag_standard` — the ciphertext and the tag of the standard.
-/

/-! ### Blocks and their bits -/

/-- The block with the given bits. -/
def Block.ofBits (v : BitVec 128) : Block := Vector.ofFn fun i => Sp80038d.byteAt v i.val

/-- Block and bits are two ways to write the same bytes. -/
theorem Block.toBytes_bits (b : Block) : Sp80038d.toBytes b.bits = b.toList :=
  Sp80038d.toBytes_ofBytes b.length_toList

/-- Byte by byte they agree. -/
theorem Block.byteAt_bits (b : Block) {k : Nat} (hk : k < 16) :
    Sp80038d.byteAt b.bits k = b[k] := by
  rw [Block.bits, Sp80038d.byteAt_ofBytes _ hk, List.getD_eq_getElem?_getD, Vector.getElem?_toList,
    Vector.getElem?_eq_getElem hk, Option.getD_some]

@[simp] theorem Block.ofBits_bits (b : Block) : Block.ofBits b.bits = b := by
  apply Vector.ext
  intro i hi
  rw [Block.ofBits, Vector.getElem_ofFn, Block.byteAt_bits b hi]

@[simp] theorem Block.bits_ofBits (v : BitVec 128) : (Block.ofBits v).bits = v := by
  apply Sp80038d.block_ext
  intro k hk
  rw [Block.byteAt_bits _ hk, Block.ofBits, Vector.getElem_ofFn]

namespace Gcm

/-- The block `memset` to zero is zero. -/
theorem bits_zeroBlock : zeroBlock.bits = 0 := by decide

/-- The byte loop of the source adds the bytes to the block. -/
theorem bits_xorInto (buf : Block) (p : Bytes) :
    (xorInto buf p).bits = buf.bits ^^^ Sp80038d.ofBytes p := by
  apply Sp80038d.block_ext
  intro k hk
  rw [Block.byteAt_bits _ hk, Sp80038d.byteAt_xor _ _ hk, Block.byteAt_bits _ hk,
    Sp80038d.byteAt_ofBytes _ hk, xorInto, Vector.getElem_ofFn]
  by_cases hp : k < p.length
  · simp [hp]
  · simp [hp]

/-! ### The counter -/

/-- The `n` bytes from byte 12 on, as a number. -/
def counter (y : Block) : Nat → Nat
  | 0 => 0
  | n + 1 => 256 * counter y n + (y[12 + n]?.getD 0).toNat

/-- A byte further up does not count for the ones below. -/
theorem counter_setIfInBounds (y : Block) {n k : Nat} (hnk : n ≤ k) (c : UInt8) :
    counter (y.setIfInBounds (12 + k) c) n = counter y n := by
  induction n with
  | zero => rfl
  | succ n ih =>
    rw [counter, counter, ih (by omega), Vector.getElem?_setIfInBounds_ne (by omega)]

/-- `n` bytes count to 256 to the n. -/
theorem counter_lt (y : Block) (n : Nat) : counter y n < 256 ^ n := by
  induction n with
  | zero => exact Nat.one_pos
  | succ n ih =>
    have hbyte := (y[12 + n]?.getD 0).toNat_lt
    rw [counter, pow_succ]
    omega

/-- **The loop** counts on, and leaves the bytes in front. -/
theorem incrementLoop_eq {n : Nat} (hn : n ≤ 4) (y : Block) :
    counter (incrementLoop n y) n = (counter y n + 1) % 256 ^ n ∧
      ∀ k, k < 12 ∨ 12 + n ≤ k → (incrementLoop n y)[k]? = y[k]? := by
  induction n generalizing y with
  | zero => exact ⟨(Nat.mod_one _).symm, fun k _ => rfl⟩
  | succ n ih =>
    have hset : (y.setIfInBounds (12 + n) (y[12 + n]?.getD 0 + 1))[12 + n]?.getD 0
        = y[12 + n]?.getD 0 + 1 := by
      rw [Vector.getElem?_setIfInBounds_self_of_lt (by omega), Option.getD_some]
    have hkeep : ∀ k, k < 12 ∨ 12 + (n + 1) ≤ k →
        (y.setIfInBounds (12 + n) (y[12 + n]?.getD 0 + 1))[k]? = y[k]? := fun k hk =>
      Vector.getElem?_setIfInBounds_ne (by omega)
    have hlow := counter_setIfInBounds y (Nat.le_refl n) (y[12 + n]?.getD 0 + 1)
    have hbyte := (y[12 + n]?.getD 0).toNat_lt
    have hcount := counter_lt y n
    have hnat : (y[12 + n]?.getD 0 + 1).toNat = ((y[12 + n]?.getD 0).toNat + 1) % 256 := rfl
    have hpow : 256 ^ (n + 1) = 256 * 256 ^ n := by rw [pow_succ, Nat.mul_comm]
    rw [incrementLoop]
    by_cases hc : y[12 + n]?.getD 0 + 1 = 0
    · -- The byte was 255, and the next one is counted on.
      obtain ⟨hvalue, hrest⟩ := ih (by omega) (y.setIfInBounds (12 + n) (y[12 + n]?.getD 0 + 1))
      have hfull : (y[12 + n]?.getD 0).toNat = 255 := by
        rw [hc] at hnat
        have hzero : (0 : UInt8).toNat = 0 := rfl
        omega
      rw [hc] at hset hkeep hlow hvalue hrest ⊢
      rw [if_neg (not_not.mpr rfl), counter, counter, hvalue, hlow, hrest (12 + n) (by omega), hset,
        hfull, hpow]
      refine ⟨?_, fun k hk => ?_⟩
      · rw [← Nat.mul_mod_mul_left]
        rfl
      · rw [hrest k (by omega), hkeep k hk]
    · have hless : (y[12 + n]?.getD 0).toNat ≠ 255 := by
        intro hfull
        rw [hfull] at hnat
        exact hc (UInt8.toNat_inj.mp hnat)
      rw [if_pos hc, counter, counter, hlow, hset, hnat, hpow]
      refine ⟨?_, hkeep⟩
      rw [Nat.mod_eq_of_lt (show 256 * counter y n + _ + 1 < 256 * 256 ^ n by omega)]
      omega

/-- A block as a number. -/
theorem toNat_bits (y : Block) :
    y.bits.toNat = 2 ^ 32 * (Sp80038d.load 128 y.toList 12).toNat + counter y 4 := by
  obtain ⟨-, hload⟩ := Sp80038d.toNat_load y.toList (show 8 * 16 ≤ 128 by decide)
  have hbyte : ∀ k, y.toList.getD k 0 = y[k]?.getD 0 := fun k => by
    rw [List.getD_eq_getElem?_getD, Vector.getElem?_toList]
  rw [Block.bits, Sp80038d.ofBytes, hload 15 (by decide), hload 14 (by decide),
    hload 13 (by decide), hload 12 (by decide), hbyte, hbyte, hbyte, hbyte]
  simp only [counter, Nat.reduceAdd]
  omega

/-- **The counter.** -/
theorem bits_incrementLoop (y : Block) : (incrementLoop 4 y).bits = Sp80038d.inc32 y.bits := by
  obtain ⟨hcount, hkeep⟩ := incrementLoop_eq (Nat.le_refl 4) y
  have hfront : Sp80038d.load 128 (incrementLoop 4 y).toList 12
      = Sp80038d.load 128 y.toList 12 := by
    refine Sp80038d.load_congr fun k hk => ?_
    rw [List.getD_eq_getElem?_getD, List.getD_eq_getElem?_getD, Vector.getElem?_toList,
      Vector.getElem?_toList, hkeep k (.inl hk)]
  have hlt := counter_lt y 4
  apply BitVec.eq_of_toNat_eq
  rw [toNat_bits, Sp80038d.toNat_inc32, toNat_bits y, hfront, hcount]
  omega

/-! ### GHASH and GCTR -/

variable {prim : Primitives}

/-- The block cipher with a key, on bits. -/
def ciph (prim : Primitives) (key : Block) (v : BitVec 128) : BitVec 128 :=
  (prim.encrypt key (Block.ofBits v)).bits

@[simp] theorem ciph_bits (key b : Block) : ciph prim key b.bits = (prim.encrypt key b).bits := by
  rw [ciph, Block.ofBits_bits]

/-- One block of GHASH. -/
def absorb (h y x : BitVec 128) : BitVec 128 := Gf128.mul (y ^^^ x) h

section Mult

variable (hmult : ∀ h x, (prim.mult h x).bits = Gf128.mul x.bits h.bits)

include hmult

/-- **The loop over the additional data** is the GHASH of its blocks. -/
theorem bits_addLoop (h buf : Block) {n : Nat} {add : Bytes} (hn : add.length ≤ n) :
    (addLoop prim h n buf add).bits = (Sp80038d.blocks add).foldl (absorb h.bits) buf.bits := by
  induction n generalizing buf add with
  | zero =>
    obtain rfl := List.length_eq_zero_iff.mp (Nat.le_zero.mp hn)
    rfl
  | succ n ih =>
    by_cases hadd : add = []
    · rw [addLoop, if_pos hadd, hadd]
      rfl
    · have hpos := List.length_pos_of_ne_nil hadd
      have hrest : (add.drop 16).length ≤ n := by
        rw [List.length_drop]
        omega
      rw [addLoop, if_neg hadd, ih _ hrest, Sp80038d.blocks_of_ne_nil hadd, List.foldl_cons, hmult,
        bits_xorInto]
      rfl

end Mult

/-- What goes into the tag. -/
def hashed (mode : Mode) (input output : Bytes) : Bytes :=
  match mode with
  | .decrypt => input
  | .encrypt => output

/-- The output of the first block, and the rest of it. -/
theorem updateAll_split (prim : Primitives) (ctx : Context) {input : Bytes} (hinput : input ≠ []) :
    (updateAll prim ctx input).2.take 16 = (updateBlock prim ctx (input.take 16)).2 ∧
      (updateAll prim ctx input).2.drop 16
        = (updateAll prim (updateBlock prim ctx (input.take 16)).1 (input.drop 16)).2 := by
  have hfirst := length_updateBlock prim ctx (List.length_take_le 16 input)
  have hrest := length_updateAll prim (updateBlock prim ctx (input.take 16)).1 (input.drop 16)
  rw [updateAll_of_ne_nil prim ctx hinput]
  rw [List.length_take] at hfirst
  rw [List.length_drop] at hrest
  dsimp only
  by_cases hlong : 16 ≤ input.length
  · exact ⟨List.take_left' (by omega), List.drop_left' (by omega)⟩
  · have hnil := List.length_eq_zero_iff.mp (show (updateAll prim
      (updateBlock prim ctx (input.take 16)).1 (input.drop 16)).2.length = 0 by omega)
    rw [hnil, List.append_nil]
    exact ⟨List.take_of_length_le (by omega), List.drop_of_length_le (by omega)⟩

/-- What is hashed is as long as the text. -/
theorem length_hashed (prim : Primitives) (ctx : Context) (input : Bytes) :
    (hashed ctx.mode input (updateAll prim ctx input).2).length = input.length := by
  cases hmode : ctx.mode with
  | decrypt => rfl
  | encrypt => exact length_updateAll prim ctx input

/-- The blocks that go into the tag. -/
theorem blocks_hashed (ctx : Context) {input : Bytes} (hinput : input ≠ []) :
    Sp80038d.blocks (hashed ctx.mode input (updateAll prim ctx input).2) =
      Sp80038d.ofBytes (hashed ctx.mode (input.take 16) (updateBlock prim ctx (input.take 16)).2) ::
        Sp80038d.blocks (hashed ctx.mode (input.drop 16)
          (updateAll prim (updateBlock prim ctx (input.take 16)).1 (input.drop 16)).2) := by
  have hlength := length_hashed prim ctx input
  have hne : hashed ctx.mode input (updateAll prim ctx input).2 ≠ [] := by
    have hpos := List.length_pos_of_ne_nil hinput
    exact List.ne_nil_of_length_pos (by omega)
  obtain ⟨htake, hdrop⟩ := updateAll_split prim ctx hinput
  rw [Sp80038d.blocks_of_ne_nil hne]
  cases hmode : ctx.mode with
  | decrypt => rfl
  | encrypt =>
    show _ :: Sp80038d.blocks (List.drop 16 (updateAll prim ctx input).2) = _
    rw [hdrop]
    show Sp80038d.ofBytes (List.take 16 (updateAll prim ctx input).2) :: _ = _
    rw [htake]
    rfl

/-- What stays as it is. -/
theorem updateAll_keeps (prim : Primitives) (ctx : Context) (input : Bytes) :
    (updateAll prim ctx input).1.h = ctx.h ∧
      (updateAll prim ctx input).1.baseEctr = ctx.baseEctr ∧
      (updateAll prim ctx input).1.addLen = ctx.addLen := by
  induction input using blocks_induction generalizing ctx with
  | hnil => exact ⟨rfl, rfl, rfl⟩
  | hstep input hinput ih =>
    rw [updateAll_of_ne_nil prim ctx hinput]
    exact ih (updateBlock prim ctx (input.take 16)).1

/-- **GCTR**, block by block. -/
theorem output_updateAll (prim : Primitives) (ctx : Context) (input : Bytes) :
    (updateAll prim ctx input).2
      = Sp80038d.gctr (ciph prim ctx.key) (Sp80038d.inc32 ctx.y.bits) input := by
  induction input using blocks_induction generalizing ctx with
  | hnil => rfl
  | hstep input hinput ih =>
    have hfirst : Sp80038d.toBytes (ciph prim ctx.key (Sp80038d.inc32 ctx.y.bits))
        = (prim.encrypt ctx.key (incrementLoop 4 ctx.y)).toList := by
      rw [← bits_incrementLoop, ciph_bits, Block.toBytes_bits]
    have hnext : Sp80038d.inc32 ctx.y.bits
        = (updateBlock prim ctx (input.take 16)).1.y.bits := (bits_incrementLoop ctx.y).symm
    rw [updateAll_of_ne_nil prim ctx hinput, Sp80038d.gctr_eq, hfirst, ih, hnext]
    rfl

/-- **GHASH**, block by block. -/
theorem bits_updateAll (hmult : ∀ h x, (prim.mult h x).bits = Gf128.mul x.bits h.bits)
    (ctx : Context) (input : Bytes) : (updateAll prim ctx input).1.buf.bits
      = (Sp80038d.blocks (hashed ctx.mode input (updateAll prim ctx input).2)).foldl
          (absorb ctx.h.bits) ctx.buf.bits := by
  induction input using blocks_induction generalizing ctx with
  | hnil => cases hmode : ctx.mode <;> simp [hashed]
  | hstep input hinput ih =>
    have hblock : (updateBlock prim ctx (input.take 16)).1.buf.bits = absorb ctx.h.bits ctx.buf.bits
        (Sp80038d.ofBytes (hashed ctx.mode (input.take 16)
          (updateBlock prim ctx (input.take 16)).2)) := by
      rw [absorb, ← bits_xorInto, ← hmult, updateBlock]
      cases hmode : ctx.mode <;> simp [hashed]
    rw [blocks_hashed ctx hinput, List.foldl_cons, ← hblock, updateAll_of_ne_nil prim ctx hinput]
    exact ih (updateBlock prim ctx (input.take 16)).1

/-! ### The tag -/

/-- The two halves are written most significant byte first. -/
theorem ofBytes_halves (z : UInt64 × UInt64) :
    Sp80038d.ofBytes (putUint64 z.1 ++ putUint64 z.2) = pair z := by
  apply Sp80038d.block_ext
  intro k hk
  rw [Sp80038d.byteAt_ofBytes _ hk, getD_halves z hk]

/-- The block of lengths is the one of the standard, in bits. -/
theorem pair_lengths (add cipher : Bytes) :
    pair (UInt64.ofNat (add.length * 8 % 2 ^ 64), UInt64.ofNat (cipher.length * 8 % 2 ^ 64))
      = Sp80038d.lengths add cipher := by
  have hhalf : ∀ n : Nat, (UInt64.ofNat (n * 8 % 2 ^ 64)).toBitVec = BitVec.ofNat 64 (8 * n) := by
    intro n
    apply BitVec.eq_of_toNat_eq
    show n * 8 % 2 ^ 64 % 2 ^ 64 = 8 * n % 2 ^ 64
    rw [Nat.mod_mod, Nat.mul_comm]
  rw [pair, hhalf, hhalf, Sp80038d.lengths]

/-- **The tag**, from what has been hashed. -/
theorem bits_finish (hmult : ∀ h x, (prim.mult h x).bits = Gf128.mul x.bits h.bits) (ctx : Context)
    {add cipher : Bytes} (haddLen : ctx.addLen = add.length) (hlen : ctx.len = cipher.length)
    (hbuf : ctx.buf.bits
      = (Sp80038d.blocks add ++ Sp80038d.blocks cipher).foldl (absorb ctx.h.bits) 0)
    (hadd : add.length < 2 ^ 61) (hcipher : cipher.length < 2 ^ 61) :
    (finish prim ctx).bits = ctx.baseEctr.bits ^^^ Sp80038d.ghash ctx.h.bits
      (Sp80038d.blocks add ++ Sp80038d.blocks cipher ++ [Sp80038d.lengths add cipher]) := by
  have hghash : Sp80038d.ghash ctx.h.bits
      (Sp80038d.blocks add ++ Sp80038d.blocks cipher ++ [Sp80038d.lengths add cipher])
        = absorb ctx.h.bits ctx.buf.bits (Sp80038d.lengths add cipher) := by
    rw [hbuf]
    exact List.foldl_append
  rw [hghash]
  -- The block of lengths is only hashed if it is not zero; when it is, hashing it would change
  -- nothing.
  by_cases hsome : ctx.len * 8 % 2 ^ 64 ≠ 0 ∨ ctx.addLen * 8 % 2 ^ 64 ≠ 0
  · have hwork := bits_xorInto ctx.buf (putUint64 (UInt64.ofNat (add.length * 8 % 2 ^ 64))
      ++ putUint64 (UInt64.ofNat (cipher.length * 8 % 2 ^ 64)))
    rw [ofBytes_halves (_, _), pair_lengths] at hwork
    simp only [finish, if_pos hsome]
    rw [haddLen, hlen, bits_xorInto, absorb, ← hwork, ← hmult]
    rfl
  · -- There is nothing to hash.
    have hcount : add.length = 0 ∧ cipher.length = 0 := by omega
    obtain rfl := List.length_eq_zero_iff.mp hcount.1
    obtain rfl := List.length_eq_zero_iff.mp hcount.2
    have hlengths : Sp80038d.lengths [] [] = 0 := by decide
    have hzero : ctx.buf.bits = 0 := hbuf
    have hxor : ∀ v : BitVec 128, v ^^^ 0 = v := fun v => BitVec.xor_zero
    simp only [finish, if_neg hsome]
    rw [hlengths, hzero, absorb, hxor, Gf128.zero_mul, hxor]

section Standard

variable (hmult : ∀ h x, (prim.mult h x).bits = Gf128.mul x.bits h.bits) (key : Block)
  (iv : Vector UInt8 12)

include hmult

/-- The context of a text. -/
theorem starts_standard (mode : Mode) (add : Bytes) :
    let ctx := starts prim (setkey prim key) mode iv add
    ctx.y.bits = Sp80038d.preCounter iv.toList ∧
      ctx.h.bits = ciph prim key 0 ∧
      ctx.baseEctr.bits = ciph prim key (Sp80038d.preCounter iv.toList) ∧
      ctx.buf.bits = (Sp80038d.blocks add).foldl (absorb ctx.h.bits) 0 := by
  intro ctx
  have hy : ctx.y.bits = Sp80038d.preCounter iv.toList := by
    show Sp80038d.ofBytes (Vector.toList (_ ++ _)) = _
    rw [Vector.toList_append]
    rfl
  -- The hash key, the first keystream block, and the additional data.
  refine ⟨hy, ?_, ?_, ?_⟩
  · rw [← bits_zeroBlock, ciph_bits]
    rfl
  · rw [← hy, ciph_bits]
    rfl
  · rw [← bits_zeroBlock]
    exact bits_addLoop hmult ctx.h zeroBlock (Nat.le_refl add.length)

/-- The output and the tag, in both modes. -/
theorem cryptAndTag_hashed (mode : Mode) {add text : Bytes} (hadd : add.length < 2 ^ 61)
    (htext : text.length ≤ 0xFFFFFFFE0) :
    (cryptAndTag prim key mode iv add text).1
        = Sp80038d.gctr (ciph prim key) (Sp80038d.inc32 (Sp80038d.preCounter iv.toList)) text ∧
      (cryptAndTag prim key mode iv add text).2.toList
        = Sp80038d.tag (ciph prim key) iv.toList add
            (hashed mode text (cryptAndTag prim key mode iv add text).1) := by
  obtain ⟨hy, hh, hbase, hbuf⟩ := starts_standard hmult key iv mode add
  have hmode : (starts prim (setkey prim key) mode iv add).mode = mode := rfl
  have hkey : (starts prim (setkey prim key) mode iv add).key = key := rfl
  have haddLen : (starts prim (setkey prim key) mode iv add).addLen = add.length := rfl
  have hlen : (starts prim (setkey prim key) mode iv add).len = 0 := rfl
  rw [cryptAndTag_eq]
  generalize starts prim (setkey prim key) mode iv add = ctx
    at hy hh hbase hbuf hmode hkey haddLen hlen ⊢
  have hupdate := update_eq prim ctx
    (show ctx.len + text.length ≤ 0xFFFFFFFE0 by rw [hlen]; omega)
  obtain ⟨hlastH, hlastBase, hlastAddLen⟩ := updateAll_keeps prim ctx text
  have hlength := length_hashed prim ctx text
  have hlastBuf := bits_updateAll hmult ctx text
  have houtput := output_updateAll prim ctx text
  rw [hkey, hy] at houtput
  rw [hupdate, hlen, Nat.zero_add]
  rw [hmode] at hlength hlastBuf
  generalize updateAll prim ctx text = r
    at hlastH hlastBase hlastAddLen hlength hlastBuf houtput ⊢
  refine ⟨houtput, ?_⟩
  -- The hash has taken in the additional data and the text; the end takes in the lengths.
  have htag := bits_finish hmult (r.1.withLen text.length) (hlastAddLen.trans haddLen)
    hlength.symm
    (show r.1.buf.bits = _ by
      rw [hlastBuf, hbuf, List.foldl_append]
      show _ = List.foldl (absorb r.1.h.bits) (List.foldl (absorb r.1.h.bits) 0 _) _
      rw [hlastH])
    hadd (by omega)
  rw [← Block.toBytes_bits, htag, Sp80038d.tag, Sp80038d.gctr_block, ← hbase, ← hh, ← hlastBase,
    ← hlastH]
  rfl

end Standard

/-- **`gcm.c` is GCM.** -/
theorem cryptAndTag_standard (encrypt : Block → Block → Block) (key : Block) (iv : Vector UInt8 12)
    {add text : Bytes} (hadd : add.length < 2 ^ 61) (htext : text.length ≤ 0xFFFFFFFE0) :
    (cryptAndTag ⟨encrypt, tableMult⟩ key .encrypt iv add text).map id Vector.toList
        = Sp80038d.encrypt (ciph ⟨encrypt, tableMult⟩ key) iv.toList add text ∧
      ∀ tag, Sp80038d.decrypt (ciph ⟨encrypt, tableMult⟩ key) iv.toList add text tag
        = if (cryptAndTag ⟨encrypt, tableMult⟩ key .decrypt iv add text).2.toList = tag
            then some (cryptAndTag ⟨encrypt, tableMult⟩ key .decrypt iv add text).1 else none := by
  have hmult : ∀ h x, ((⟨encrypt, tableMult⟩ : Primitives).mult h x).bits
      = Gf128.mul x.bits h.bits := bits_tableMult
  generalize (⟨encrypt, tableMult⟩ : Primitives) = prim at hmult ⊢
  obtain ⟨hcipher, htag⟩ := cryptAndTag_hashed hmult key iv .encrypt hadd htext
  obtain ⟨hclear, htag'⟩ := cryptAndTag_hashed hmult key iv .decrypt hadd htext
  refine ⟨?_, fun tag => ?_⟩
  · rw [Sp80038d.encrypt, ← hcipher]
    exact Prod.ext rfl htag
  · rw [Sp80038d.decrypt, htag', ← hclear]
    rfl

/-- A block of zeros under the key of zeros. -/
theorem cryptAndTag_standard_zeros :
    (cryptAndTag ⟨fun _ => zeroKeyAes, tableMult⟩ zeroBlock .encrypt (Vector.replicate 12 0) []
        (List.replicate 16 0)).map id Vector.toList
      = Sp80038d.encrypt (ciph ⟨fun _ => zeroKeyAes, tableMult⟩ zeroBlock)
          (Vector.replicate 12 (0 : UInt8)).toList [] (List.replicate 16 0) :=
  (cryptAndTag_standard (fun _ => zeroKeyAes) zeroBlock (Vector.replicate 12 0)
    (show ([] : Bytes).length < 2 ^ 61 by decide) (by decide)).1

end Gcm

end Icl.Security
