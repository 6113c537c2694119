import Icl.Format.Sp80038d
import Icl.Security.Gcm
import Mathlib.Data.List.GetD

namespace Icl.Security

open Icl.Cxx Icl.Format

/-!
# The tables of `gcm.c`

`gcm_mult` takes a block four bits at a time, with a table of sixteen multiples of H.

* `value_entry` — the table holds the multiples;
* `value_multStep` — one step, which is a multiplication by `X^4` and an addition;
* `bits_tableMult` — the product of the standard.
-/

/-- The bits of a block. -/
def Block.bits (b : Block) : BitVec 128 := Sp80038d.ofBytes b.toList

namespace Gcm

/-- The two halves of a block. -/
def pair (z : UInt64 × UInt64) : BitVec 128 := z.1.toBitVec ++ z.2.toBitVec

/-- The element that two halves stand for. -/
noncomputable def value (z : UInt64 × UInt64) : Gf128.Quotient := Gf128.elem (pair z)

/-! ### Halves and bytes -/

/-- Two halves are combined half by half. -/
theorem pair_xor (v w : UInt64 × UInt64) :
    pair (v.1 ^^^ w.1, v.2 ^^^ w.2) = pair v ^^^ pair w :=
  BitVec.xor_append.symm

/-- An exclusive or adds the field elements. -/
theorem value_xor (v w : UInt64 × UInt64) :
    value (v.1 ^^^ w.1, v.2 ^^^ w.2) = value v + value w := by
  rw [value, pair_xor, Gf128.elem_xor, value, value]

/-- The low half holds the bits below 64. -/
theorem getLsbD_pair (z : UInt64 × UInt64) (i : Nat) : (pair z).getLsbD i
    = if i < 64 then z.2.toBitVec.getLsbD i else z.1.toBitVec.getLsbD (i - 64) := by
  rw [pair, BitVec.getLsbD_append]

/-- What leaves the upper half comes into the lower one. -/
theorem append_shiftRight (a b : BitVec 64) {n : Nat} (hn : n < 64) :
    (a >>> n) ++ (a <<< (64 - n) ||| b >>> n) = (a ++ b) >>> n := by
  apply BitVec.eq_of_getLsbD_eq
  intro i hi
  rw [BitVec.getLsbD_append, BitVec.getLsbD_ushiftRight, BitVec.getLsbD_ushiftRight,
    BitVec.getLsbD_append, BitVec.getLsbD_or, BitVec.getLsbD_shiftLeft, BitVec.getLsbD_ushiftRight]
  by_cases hlow : i < 64
  · by_cases hin : n + i < 64
    · simp [hlow, hin, show i < 64 - n by omega]
    · have hindex : i - (64 - n) = n + i - 64 := by omega
      simp [hlow, hin, show ¬ i < 64 - n by omega, hindex,
        BitVec.getLsbD_of_ge b (n + i) (by omega)]
  · have hindex : n + (i - 64) = n + i - 64 := by omega
    simp [hlow, show ¬ n + i < 64 by omega, hindex]

/-- `GET_UINT32_BE` twice reads eight bytes of the block. -/
theorem toBitVec_getUint64 (b : Block) (i : Nat) :
    (getUint64 b i).toBitVec = Sp80038d.load 64 (b.toList.drop i) 8 := by
  have hbyte : ∀ k, (b[i + k]?.getD 0) = (b.toList.drop i).getD k 0 := by
    intro k
    rw [List.getD_eq_getElem?_getD, List.getElem?_drop, Vector.getElem?_toList]
  simp only [getUint64, hbyte]
  rfl

/-- A block from its halves. -/
theorem pair_getUint64 (b : Block) : pair (getUint64 b 0, getUint64 b 8) = b.bits := by
  apply BitVec.eq_of_getLsbD_eq
  intro i hi
  rw [getLsbD_pair, Block.bits, Sp80038d.ofBytes, Sp80038d.getLsbD_load _ (Nat.le_refl 128) hi,
    toBitVec_getUint64, toBitVec_getUint64]
  by_cases hlow : i < 64
  · have hindex : 8 + (8 - 1 - i / 8) = 16 - 1 - i / 8 := by omega
    rw [if_pos hlow, Sp80038d.getLsbD_load _ (Nat.le_refl 64) hlow, List.getD_eq_getElem?_getD,
      List.getElem?_drop, hindex, List.getD_eq_getElem?_getD]
  · have hindex : 8 - 1 - (i - 64) / 8 = 16 - 1 - i / 8 := by omega
    have hbit : (i - 64) % 8 = i % 8 := by omega
    rw [if_neg hlow, Sp80038d.getLsbD_load _ (Nat.le_refl 64) (by omega), hindex, hbit,
      List.drop_zero]

/-! ### The table -/

/-- Writing one entry of the tables leaves the others. -/
theorem entry_setEntry (tables : Tables) {i : Nat} (hi : i < 16) (v : UInt64 × UInt64) (j : Nat) :
    (tables.setEntry i v).entry j = if i = j then v else tables.entry j := by
  rw [Tables.entry, Tables.setEntry, Tables.entry]
  by_cases h : i = j
  · subst h
    simp [hi]
  · simp [h]

/-- What is done to the two halves from one power of two to the next. -/
def halve (v : UInt64 × UInt64) : UInt64 × UInt64 :=
  ((v.1 >>> 1) ^^^ (((v.2 &&& 1) * 0xe1000000) <<< 32), (v.1 <<< 63) ||| (v.2 >>> 1))

/-- The last bit of a half. -/
theorem and_one_eq (x : UInt64) : x &&& 1 = if x.toBitVec.getLsbD 0 then 1 else 0 := by
  apply UInt64.toNat_inj.mp
  have hbit : x.toBitVec.getLsbD 0 = decide (x.toNat % 2 = 1) := by
    rw [BitVec.getLsbD, Nat.testBit_zero]
    rfl
  rw [UInt64.toNat_and, UInt64.toNat_one, Nat.and_one_is_mod, hbit]
  have hmod := Nat.mod_two_eq_zero_or_one x.toNat
  rcases hmod with h | h
  · simp [h]
  · simp [h]

/-- **The shift of `gcm_gen_table`** is the multiplication by x of the standard. -/
theorem pair_halve (v : UInt64 × UInt64) : pair (halve v) = Gf128.mulX (pair v) := by
  have hshift : pair (v.1 >>> 1, (v.1 <<< 63) ||| (v.2 >>> 1)) = pair v >>> 1 :=
    append_shiftRight v.1.toBitVec v.2.toBitVec (show 1 < 64 by decide)
  have hparts : pair (halve v) = pair v >>> 1 ^^^ pair (((v.2 &&& 1) * 0xe1000000) <<< 32, 0) := by
    rw [← hshift, ← pair_xor, UInt64.xor_zero, halve]
  have hlow : (pair v).getLsbD 0 = v.2.toBitVec.getLsbD 0 := getLsbD_pair v 0
  rw [hparts, and_one_eq, Gf128.mulX, hlow]
  by_cases hbit : v.2.toBitVec.getLsbD 0 = true
  · rw [if_pos hbit, if_pos hbit]
    congr 1
  · rw [if_neg hbit, if_neg hbit]
    exact BitVec.xor_zero

/-- In the field it multiplies by the root. -/
theorem value_halve (v : UInt64 × UInt64) : value (halve v) = Gf128.root * value v := by
  rw [value, pair_halve, Gf128.elem_mulX, value]

/-- Two entries are added. -/
def combine (i : Nat) (tables : Tables) (j : Nat) : Tables :=
  tables.setEntry (i + j)
    ((tables.entry i).1 ^^^ (tables.entry j).1, (tables.entry i).2 ^^^ (tables.entry j).2)

/-- The entries for the powers of two. -/
def powers (h : Block) : Tables :=
  let v := (getUint64 h 0, getUint64 h 8)
  let zeros : Tables := { hl := Vector.replicate 16 0, hh := Vector.replicate 16 0 }
  (((zeros.setEntry 8 v).setEntry 4 (halve v)).setEntry 2 (halve (halve v))).setEntry 1
    (halve (halve (halve v)))

/-- `gcm_gen_table` is its three loops after the powers. -/
theorem genTable_eq (h : Block) : genTable h =
    [2, 4, 8].foldl (fun tables i => (List.range i).tail.foldl (combine i) tables) (powers h) := rfl

/-- The element of four bits, the highest one being the constant coefficient. -/
noncomputable def nibble (k : Nat) : Gf128.Quotient := Gf128.elem (BitVec.ofNat 128 k <<< 124)

/-- An entry is the multiple that it should be. -/
def Multiple (a : Gf128.Quotient) (tables : Tables) (k : Nat) : Prop :=
  value (tables.entry k) = nibble k * a

/-- The bits of the two indices do not meet, so their elements add. -/
theorem nibble_add {i j : Nat} (hi : i = 2 ∨ i = 4 ∨ i = 8) (hj : j < i) :
    nibble (i + j) = nibble i + nibble j := by
  have hbits : ∀ i ∈ [2, 4, 8], ∀ j < i, BitVec.ofNat 128 (i + j) <<< 124
      = BitVec.ofNat 128 i <<< 124 ^^^ BitVec.ofNat 128 j <<< 124 := by decide
  rw [nibble, hbits i (by simpa using hi) j hj, Gf128.elem_xor, nibble, nibble]

section Entries

variable {a : Gf128.Quotient} {i : Nat}

/-- **The inner loop**, after `m` turns. -/
theorem combine_loop (hi : i = 2 ∨ i = 4 ∨ i = 8) {tables : Tables}
    (hsmall : ∀ k ≤ i, Multiple a tables k) {m : Nat} (hm : m < i) :
    (∀ k ≤ i + m, Multiple a ((List.range' 1 m).foldl (combine i) tables) k) ∧
      ∀ k, i + m < k → ((List.range' 1 m).foldl (combine i) tables).entry k = tables.entry k := by
  induction m with
  | zero => exact ⟨hsmall, fun k _ => rfl⟩
  | succ m ih =>
    obtain ⟨hbelow, habove⟩ := ih (by omega)
    rw [List.range'_1_concat, List.foldl_append]
    generalize (List.range' 1 m).foldl (combine i) tables = t at hbelow habove ⊢
    have hentry : ∀ k, (combine i t (1 + m)).entry k = if i + (1 + m) = k
        then ((t.entry i).1 ^^^ (t.entry (1 + m)).1, (t.entry i).2 ^^^ (t.entry (1 + m)).2)
        else t.entry k := entry_setEntry t (by omega) _
    rw [List.foldl_cons, List.foldl_nil]
    refine ⟨fun k hk => ?_, fun k hk => ?_⟩
    · rw [Multiple, hentry]
      -- The entry just written is the sum of two that are right; the others are as they were.
      by_cases hkeq : i + (1 + m) = k
      · rw [if_pos hkeq, ← hkeq, value_xor, nibble_add hi (by omega), add_mul]
        exact congrArg₂ (· + ·) (hbelow i (by omega)) (hbelow (1 + m) (by omega))
      · rw [if_neg hkeq]
        exact hbelow k (by omega)
    · rw [hentry, if_neg (by omega)]
      exact habove k (by omega)

/-- One turn of the outer loop: the multiples below the next power of two are there. -/
theorem multiples_of_combine (hi : i = 2 ∨ i = 4 ∨ i = 8) {tables : Tables}
    (hsmall : ∀ k ≤ i, Multiple a tables k) :
    (∀ k < 2 * i, Multiple a ((List.range i).tail.foldl (combine i) tables) k) ∧
      ∀ k, 2 * i ≤ k → ((List.range i).tail.foldl (combine i) tables).entry k = tables.entry k := by
  have htail : (List.range i).tail = List.range' 1 (i - 1) := by
    rw [List.range_eq_range', List.tail_range']
  obtain ⟨hbelow, habove⟩ := combine_loop hi hsmall (show i - 1 < i by omega)
  rw [htail]
  exact ⟨fun k hk => hbelow k (by omega), fun k hk => habove k (by omega)⟩

end Entries

/-- The entries filled in before the loops: 0, 8, 4, 2 and 1. -/
theorem entry_powers (h : Block) (k : Nat) : (powers h).entry k =
    if 1 = k then halve (halve (halve (getUint64 h 0, getUint64 h 8)))
    else if 2 = k then halve (halve (getUint64 h 0, getUint64 h 8))
    else if 4 = k then halve (getUint64 h 0, getUint64 h 8)
    else if 8 = k then (getUint64 h 0, getUint64 h 8)
    else (0, 0) := by
  have hzeros : (Tables.mk (Vector.replicate 16 0) (Vector.replicate 16 0)).entry k = (0, 0) := by
    by_cases hk : k < 16
    · simp [Tables.entry, hk]
    · simp [Tables.entry, hk]
  simp only [powers]
  rw [entry_setEntry _ (by decide), entry_setEntry _ (by decide), entry_setEntry _ (by decide),
    entry_setEntry _ (by decide), hzeros]

/-- Index 0 stands for zero. -/
theorem nibble_zero : nibble 0 = 0 := by
  rw [nibble, ← Gf128.elem_zero]
  rfl

/-- The highest bit is the constant coefficient. -/
theorem nibble_eight : nibble 8 = 1 := by
  rw [nibble, ← Gf128.elem_one]
  congr 1

/-- Half the index is one multiplication by the root more. -/
theorem nibble_half {k : Nat} (hk : k = 1 ∨ k = 2 ∨ k = 4) :
    nibble k = Gf128.root * nibble (2 * k) := by
  have hbits : ∀ k ∈ [1, 2, 4],
      BitVec.ofNat 128 k <<< 124 = Gf128.mulX (BitVec.ofNat 128 (2 * k) <<< 124) := by decide
  rw [nibble, hbits k (by simpa using hk), Gf128.elem_mulX, nibble]

/-- **The powers are right**: each is its index times the key. -/
theorem multiple_powers (h : Block) {k : Nat} (hk : k = 0 ∨ k = 1 ∨ k = 2 ∨ k = 4 ∨ k = 8) :
    Multiple (Gf128.elem h.bits) (powers h) k := by
  have hvalue : value (getUint64 h 0, getUint64 h 8) = Gf128.elem h.bits := by
    rw [value, pair_getUint64]
  have h₄ : nibble 4 = Gf128.root := by
    rw [nibble_half (.inr (.inr rfl)), nibble_eight, mul_one]
  have h₂ : nibble 2 = Gf128.root * Gf128.root := by
    rw [nibble_half (.inr (.inl rfl)), h₄]
  have h₁ : nibble 1 = Gf128.root * (Gf128.root * Gf128.root) := by
    rw [nibble_half (.inl rfl), h₂]
  rw [Multiple, entry_powers]
  obtain rfl | rfl | rfl | rfl | rfl := hk
  · have hpair : pair (0, 0) = 0 := by decide
    rw [nibble_zero, zero_mul, if_neg (by decide), if_neg (by decide), if_neg (by decide),
      if_neg (by decide), value, hpair, Gf128.elem_zero]
  · rw [if_pos rfl, value_halve, value_halve, value_halve, hvalue, h₁, mul_assoc, mul_assoc]
  · rw [if_neg (by decide), if_pos rfl, value_halve, value_halve, hvalue, h₂, mul_assoc]
  · rw [if_neg (by decide), if_neg (by decide), if_pos rfl, value_halve, hvalue, h₄]
  · rw [if_neg (by decide), if_neg (by decide), if_neg (by decide), if_pos rfl, hvalue,
      nibble_eight, one_mul]

/-- **The table** holds the multiples of H. -/
theorem value_entry (h : Block) {k : Nat} (hk : k < 16) :
    value ((genTable h).entry k) = nibble k * Gf128.elem h.bits := by
  have h₀ : ∀ k ≤ 2, Multiple (Gf128.elem h.bits) (powers h) k := fun k hk =>
    multiple_powers h (by omega)
  obtain ⟨hbelow₂, habove₂⟩ := multiples_of_combine (.inl rfl) h₀
  rw [genTable_eq, List.foldl_cons, List.foldl_cons, List.foldl_cons, List.foldl_nil]
  generalize (List.range 2).tail.foldl (combine 2) (powers h) = t₂ at hbelow₂ habove₂ ⊢
  -- Entry 4 is one of the powers, which the first loop leaves alone.
  have h₂ : ∀ k ≤ 4, Multiple (Gf128.elem h.bits) t₂ k := by
    intro k hk
    by_cases hkeq : k = 4
    · rw [Multiple, habove₂ k (by omega)]
      exact multiple_powers h (by omega)
    · exact hbelow₂ k (by omega)
  obtain ⟨hbelow₄, habove₄⟩ := multiples_of_combine (.inr (.inl rfl)) h₂
  generalize (List.range 4).tail.foldl (combine 4) t₂ = t₄ at hbelow₄ habove₄ ⊢
  -- And entry 8 another one.
  have h₄ : ∀ k ≤ 8, Multiple (Gf128.elem h.bits) t₄ k := by
    intro k hk
    by_cases hkeq : k = 8
    · rw [Multiple, habove₄ k (by omega), habove₂ k (by omega)]
      exact multiple_powers h (by omega)
    · exact hbelow₄ k (by omega)
  exact (multiples_of_combine (.inr (.inr rfl)) h₄).1 k (by omega)

/-! ### The product -/

/-- `last4`: what four bits that go out come back as. -/
theorem mulX_last4 : ∀ n < 16,
    Gf128.mulX^[4] (BitVec.ofNat 128 n) = ((last4.getD n 0).toBitVec.setWidth 128) <<< 112 := by
  decide

/-- What goes out of the lower half comes back at the top. -/
def reduce (z : UInt64 × UInt64) : UInt64 × UInt64 :=
  ((z.1 >>> 4) ^^^ (last4.getD (z.2 &&& 0xf).toNat 0 <<< 48), (z.1 <<< 60) ||| (z.2 >>> 4))

/-- The four bits that go out. -/
theorem getLsbD_low (z : UInt64 × UInt64) {i : Nat} (hi : i < 4) :
    (BitVec.ofNat 128 (z.2 &&& 0xf).toNat).getLsbD i = (pair z).getLsbD i := by
  have hmask : ∀ i < 4, Nat.testBit 15 i = true := by decide
  rw [getLsbD_pair, if_pos (by omega), BitVec.getLsbD_ofNat, UInt64.toNat_and, Nat.testBit_and,
    decide_eq_true (show i < 128 by omega)]
  show (true && (_ && Nat.testBit 15 i)) = _
  rw [hmask i hi, Bool.and_true, Bool.true_and]
  rfl

/-- `last4` is added at the top of the high half. -/
theorem pair_shiftLeft (l : UInt64) : pair (l <<< 48, 0) = l.toBitVec.setWidth 128 <<< 112 := by
  apply BitVec.eq_of_getLsbD_eq
  intro i hi
  have hshift : (l <<< 48).toBitVec = l.toBitVec <<< 48 := rfl
  rw [getLsbD_pair, hshift, BitVec.getLsbD_shiftLeft, BitVec.getLsbD_shiftLeft,
    BitVec.getLsbD_setWidth]
  by_cases hlow : i < 64
  · simp [hlow, show i < 112 by omega]
  · have hindex : i - 64 - 48 = i - 112 := by omega
    rw [if_neg hlow, hindex]
    by_cases hin : i < 112
    · simp [hin, show i - 64 < 48 by omega]
    · simp [hi, hin, show ¬ i - 64 < 48 by omega, show i - 64 < 64 by omega,
        show i - 112 < 128 by omega]

/-- **One step of the reduction** multiplies by the fourth power of the root. -/
theorem value_reduce (z : UInt64 × UInt64) : value (reduce z) = Gf128.root ^ 4 * value z := by
  have hshift : pair (z.1 >>> 4, (z.1 <<< 60) ||| (z.2 >>> 4)) = pair z >>> 4 :=
    append_shiftRight z.1.toBitVec z.2.toBitVec (show 4 < 64 by decide)
  have hparts : pair (reduce z)
      = pair z >>> 4 ^^^ pair (last4.getD (z.2 &&& 0xf).toNat 0 <<< 48, 0) := by
    rw [← hshift, ← pair_xor, UInt64.xor_zero, reduce]
  have hn : (z.2 &&& 0xf).toNat < 16 := by
    rw [UInt64.toNat_and]
    exact Nat.lt_succ_of_le Nat.and_le_right
  rw [value, hparts, pair_shiftLeft, ← mulX_last4 _ hn, Gf128.elem_xor, Gf128.elem_iterate_mulX,
    value]
  -- The block is what stays, and the four bits that go out.
  generalize hlo : BitVec.ofNat 128 (z.2 &&& 0xf).toNat = lo
  have hbits : ∀ i < 4, (pair z ^^^ lo).getLsbD i = false := by
    intro i hi
    rw [BitVec.getLsbD_xor, ← hlo, getLsbD_low z hi, Bool.xor_self]
  have hzero : ∀ n < 16, BitVec.ofNat 128 n >>> 4 = 0#128 := by decide
  have hrest := Gf128.elem_shiftRight hbits
  rw [BitVec.ushiftRight_xor_distrib, ← hlo, hzero _ hn, hlo, BitVec.xor_zero, Gf128.elem_xor]
    at hrest
  rw [hrest]
  linear_combination Gf128.root ^ 4 * Gf128.add_self (Gf128.elem lo)

/-- One step, of which the table gives the addend. -/
theorem value_multStep (tables : Tables) (z : UInt64 × UInt64) (half : UInt8) :
    value (multStep tables z half)
      = Gf128.root ^ 4 * value z + value (tables.entry half.toNat) := by
  have hstep : multStep tables z half
      = ((reduce z).1 ^^^ (tables.entry half.toNat).1,
        (reduce z).2 ^^^ (tables.entry half.toNat).2) := rfl
  rw [hstep, value_xor, value_reduce]

/-- Four more bits of a block, of which the lower ones have been taken. -/
theorem elem_shiftLeft (v : BitVec 128) {j n : Nat} (hj : j ≤ 124)
    (hbits : ∀ i < 4, n.testBit i = v.getLsbD (124 - j + i)) :
    Gf128.elem (v <<< j) = Gf128.root ^ 4 * Gf128.elem (v <<< (j + 4)) + nibble n := by
  have hlow : ∀ i < 4, (v <<< (j + 4)).getLsbD i = false := by
    intro i hi
    rw [BitVec.getLsbD_shiftLeft]
    simp [show i < j + 4 by omega]
  -- The four bits at the top come out, and what is left is shifted by four more.
  have hsplit : v <<< j = (v <<< (j + 4)) >>> 4 ^^^ BitVec.ofNat 128 n <<< 124 := by
    apply BitVec.eq_of_getLsbD_eq
    intro i hi
    rw [BitVec.getLsbD_xor, BitVec.getLsbD_ushiftRight, BitVec.getLsbD_shiftLeft,
      BitVec.getLsbD_shiftLeft, BitVec.getLsbD_shiftLeft, BitVec.getLsbD_ofNat]
    by_cases htop : i < 124
    · have hindex : 4 + i - (j + 4) = i - j := by omega
      have hless : (4 + i < j + 4) = (i < j) := by
        apply propext
        omega
      simp [hi, htop, show 4 + i < 128 by omega, hindex, hless]
    · have hindex : 124 - j + (i - 124) = i - j := by omega
      have hbit := hbits (i - 124) (by omega)
      rw [hindex] at hbit
      simp [hi, htop, show ¬ 4 + i < 128 by omega, hbit, show ¬ i < j by omega,
        show i - 124 < 128 by omega]
  rw [hsplit, Gf128.elem_xor, Gf128.elem_shiftRight hlow, nibble]

section Loop

variable (h x : Block)

/-- The bits of a block, byte by byte, the first byte being the highest. -/
theorem getLsbD_bits {k i : Nat} (hk : k < 16) (hi : i < 8) :
    x.bits.getLsbD (8 * (15 - k) + i) = (x[k]?.getD 0).toBitVec.getLsbD i := by
  have hindex : 16 - 1 - (8 * (15 - k) + i) / 8 = k := by omega
  have hbit : (8 * (15 - k) + i) % 8 = i := by omega
  rw [Block.bits, Sp80038d.ofBytes, Sp80038d.getLsbD_load _ (Nat.le_refl 128) (by omega), hindex,
    hbit, List.getD_eq_getElem?_getD, Vector.getElem?_toList]

/-- The low nibble holds the low four bits. -/
theorem testBit_and_15 (c : UInt8) {i : Nat} (hi : i < 4) :
    (c &&& 0xf).toNat.testBit i = c.toBitVec.getLsbD i := by
  have hmask : ∀ i < 4, Nat.testBit 15 i = true := by decide
  rw [UInt8.toNat_and, Nat.testBit_and]
  show (_ && Nat.testBit 15 i) = _
  rw [hmask i hi, Bool.and_true]
  rfl

/-- The high nibble holds the high four. -/
theorem testBit_shiftRight_4 (c : UInt8) (i : Nat) :
    (c >>> 4).toNat.testBit i = c.toBitVec.getLsbD (4 + i) := by
  have hshift : (c >>> 4).toNat = c.toNat >>> 4 := rfl
  rw [hshift, Nat.testBit_shiftRight]
  rfl

/-- The lower four bits of byte `k`. -/
theorem value_lowStep {z : UInt64 × UInt64} {k : Nat} (hk : k < 16)
    (hz : value z = Gf128.elem (x.bits <<< (8 * k + 8)) * Gf128.elem h.bits) :
    value (multStep (genTable h) z (x[k]?.getD 0 &&& 0xf))
      = Gf128.elem (x.bits <<< (8 * k + 4)) * Gf128.elem h.bits := by
  have hn : (x[k]?.getD 0 &&& 0xf).toNat < 16 := by
    rw [UInt8.toNat_and]
    exact Nat.lt_succ_of_le Nat.and_le_right
  have hsplit := elem_shiftLeft x.bits (show 8 * k + 4 ≤ 124 by omega) fun i hi => by
    have hindex : 124 - (8 * k + 4) + i = 8 * (15 - k) + i := by omega
    rw [hindex, getLsbD_bits x hk (by omega), testBit_and_15 _ hi]
  rw [value_multStep, value_entry h hn, hz, hsplit]
  ring

/-- The higher four bits of byte `k`. -/
theorem value_highStep {z : UInt64 × UInt64} {k : Nat} (hk : k < 16)
    (hz : value z = Gf128.elem (x.bits <<< (8 * k + 4)) * Gf128.elem h.bits) :
    value (multStep (genTable h) z (x[k]?.getD 0 >>> 4))
      = Gf128.elem (x.bits <<< (8 * k)) * Gf128.elem h.bits := by
  have hn : (x[k]?.getD 0 >>> 4).toNat < 16 := by
    have hshift : (x[k]?.getD 0 >>> 4).toNat = (x[k]?.getD 0).toNat >>> 4 := rfl
    have hlt := (x[k]?.getD 0).toNat_lt
    rw [hshift, Nat.shiftRight_eq_div_pow]
    omega
  have hsplit := elem_shiftLeft x.bits (show 8 * k ≤ 124 by omega) fun i hi => by
    have hindex : 124 - 8 * k + i = 8 * (15 - k) + (4 + i) := by omega
    rw [hindex, getLsbD_bits x hk (by omega), testBit_shiftRight_4]
  rw [value_multStep, value_entry h hn, hz, hsplit]
  ring

/-- One turn of the loop of `gcm_mult`. -/
def multTurn (z : UInt64 × UInt64) (i : Nat) : UInt64 × UInt64 :=
  multStep (genTable h)
    (if i ≠ 15 then multStep (genTable h) z (x[i]?.getD 0 &&& 0xf) else z) (x[i]?.getD 0 >>> 4)

/-- **The loop**, from byte `k - 1` on. -/
theorem value_multLoop {k : Nat} (hk : k ≤ 15) {z : UInt64 × UInt64}
    (hz : value z = Gf128.elem (x.bits <<< (8 * k)) * Gf128.elem h.bits) :
    value ((List.range k).reverse.foldl (multTurn h x) z)
      = Gf128.elem x.bits * Gf128.elem h.bits := by
  induction k generalizing z with
  | zero => rwa [BitVec.shiftLeft_zero] at hz
  | succ k ih =>
    have hturn : value (multTurn h x z k)
        = Gf128.elem (x.bits <<< (8 * k)) * Gf128.elem h.bits := by
      rw [multTurn, if_pos (by omega)]
      exact value_highStep h x (by omega) (value_lowStep h x (by omega) hz)
    rw [List.range_succ, List.reverse_append, List.reverse_singleton, List.singleton_append,
      List.foldl_cons]
    exact ih (by omega) hturn

/-- The bytes of a 64-bit number, most significant first. -/
theorem getD_putUint64 (n : UInt64) {k : Nat} (hk : k < 8) :
    (putUint64 n).getD k 0 = (n >>> UInt64.ofNat (56 - 8 * k)).toUInt8 := by
  rw [putUint64, List.getD_eq_getElem?_getD, List.getElem?_map, List.getElem?_range hk]
  rfl

/-- Byte `k` of a half. -/
theorem getMsbD_putUint64 (n : UInt64) {k i : Nat} (hk : k < 8) (hi : i < 8) :
    ((putUint64 n).getD k 0).toBitVec.getMsbD i = n.toBitVec.getMsbD (8 * k + i) := by
  have hshift : (n >>> UInt64.ofNat (56 - 8 * k)).toUInt8.toBitVec
      = (n.toBitVec >>> (56 - 8 * k)).setWidth 8 := by
    rw [UInt64.toBitVec_toUInt8, UInt64.toBitVec_shiftRight]
    congr 1
    apply BitVec.eq_of_toNat_eq
    have hmod : (56 - 8 * k) % 64 = 56 - 8 * k := by omega
    simp [hmod]
  have hindex : 56 - 8 * k + (8 - 1 - i) = 64 - 1 - (8 * k + i) := by omega
  rw [getD_putUint64 n hk, hshift, BitVec.getMsbD_eq_getLsbD, BitVec.getMsbD_eq_getLsbD,
    BitVec.getLsbD_setWidth, BitVec.getLsbD_ushiftRight, hindex, decide_eq_true hi,
    decide_eq_true (show 8 * k + i < 64 by omega), decide_eq_true (show 8 - 1 - i < 8 by omega)]
  rfl

/-- Byte `k` of the two halves. -/
theorem getD_halves (z : UInt64 × UInt64) {k : Nat} (hk : k < 16) :
    (putUint64 z.1 ++ putUint64 z.2).getD k 0 = Sp80038d.byteAt (pair z) k := by
  have hlength : (putUint64 z.1).length = 8 := rfl
  apply Sp80038d.byte_ext
  intro i hi
  rw [Sp80038d.getMsbD_byteAt _ hk hi, pair, BitVec.getMsbD_append]
  by_cases hlow : k < 8
  · rw [List.getD_append _ _ _ _ (by omega), getMsbD_putUint64 _ hlow hi]
    simp [show ¬ 64 ≤ 8 * k + i by omega]
  · have hindex : 8 * (k - 8) + i = 8 * k + i - 64 := by omega
    rw [List.getD_append_right _ _ _ _ (by omega), hlength, getMsbD_putUint64 _ (by omega) hi,
      hindex]
    simp [show 64 ≤ 8 * k + i by omega]

/-- The bytes of the output. -/
theorem bits_output (z : UInt64 × UInt64) :
    Block.bits (Vector.ofFn fun i => (putUint64 z.1 ++ putUint64 z.2).getD i.val 0) = pair z := by
  apply Sp80038d.block_ext
  intro k hk
  rw [Block.bits, Sp80038d.byteAt_ofBytes _ hk, ← getD_halves z hk, List.getD_eq_getElem?_getD,
    Vector.getElem?_toList, Vector.getElem?_ofFn, dif_pos hk, Option.getD_some]

/-- The table multiplication is its loop and the writing of the result. -/
theorem tableMult_eq : tableMult h x =
    let z := (List.range 15).reverse.foldl (multTurn h x)
      (multTurn h x ((genTable h).entry (x.get ⟨15, by decide⟩ &&& 0xf).toNat) 15)
    Vector.ofFn fun i => (putUint64 z.1 ++ putUint64 z.2).getD i.val 0 := rfl

/-- **The table gives the product** of the standard. -/
theorem bits_tableMult : (tableMult h x).bits = Gf128.mul x.bits h.bits := by
  -- The last nibble starts the sum, and each further one is taken in by a step of the loop.
  have hstart : value ((genTable h).entry (x[15] &&& 0xf).toNat)
      = Gf128.elem (x.bits <<< (8 * 15 + 4)) * Gf128.elem h.bits := by
    have hn : (x[15] &&& 0xf).toNat < 16 := by
      rw [UInt8.toNat_and]
      exact Nat.lt_succ_of_le Nat.and_le_right
    have hbits : ∀ i < 4, (x[15] &&& 0xf).toNat.testBit i = x.bits.getLsbD (124 - 124 + i) := by
      intro i hi
      rw [testBit_and_15 _ hi]
      exact (getLsbD_bits x (show 15 < 16 by decide) (show i < 8 by omega)).symm
    have hsplit := elem_shiftLeft x.bits (Nat.le_refl 124) hbits
    have hgone : x.bits <<< (124 + 4) = 0 := BitVec.shiftLeft_eq_zero (Nat.le_refl 128)
    rw [value_entry h hn, hsplit, hgone, Gf128.elem_zero, mul_zero, zero_add]
  have hfirst : value (multTurn h x ((genTable h).entry (x[15] &&& 0xf).toNat) 15)
      = Gf128.elem (x.bits <<< (8 * 15)) * Gf128.elem h.bits := by
    rw [multTurn, if_neg (by decide)]
    exact value_highStep h x (by decide) hstart
  have hloop := value_multLoop h x (Nat.le_refl 15) hfirst
  apply Gf128.elem_injective
  rw [Gf128.elem_mul, ← hloop, value]
  exact congrArg Gf128.elem ((congrArg Block.bits (tableMult_eq h x)).trans (bits_output _))

end Loop

end Gcm

end Icl.Security
