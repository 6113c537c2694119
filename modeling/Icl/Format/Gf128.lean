import Mathlib.Algebra.Field.ZMod
import Mathlib.RingTheory.AdjoinRoot
import Mathlib.Tactic.LinearCombination

namespace Icl.Format

open Polynomial

/-!
# Blocks of 128 bits as elements of a ring

The multiplication of blocks of NIST SP 800-38D, section 6.3.  The first bit of a block is the
constant coefficient of a polynomial with coefficients in GF(2), and polynomials are equal when they
are so modulo `1 + X + X^2 + X^7 + X^128`.

* `mulX`, `mul` — the product, bit by bit;
* `elem` — the element of the ring that a block stands for;
* `elem_mul` — the product of blocks stands for the product in the ring;
* `elem_injective` — a block is known from its element.
-/

namespace Gf128

/-! ### The product of the standard -/

/-- `R`, the block `11100001 || 0^120`. -/
def r : BitVec 128 := 0xE1#128 <<< 120

/-- The block `V (i + 1)`, from `V i`. -/
def mulX (v : BitVec 128) : BitVec 128 := if v.getLsbD 0 then v >>> 1 ^^^ r else v >>> 1

/-- One step: the blocks `Z` and `V`. -/
def mulStep (x : BitVec 128) (st : BitVec 128 × BitVec 128) (i : Nat) : BitVec 128 × BitVec 128 :=
  (if x.getMsbD i then st.1 ^^^ st.2 else st.1, mulX st.2)

/-- The product of two blocks. -/
def mul (x y : BitVec 128) : BitVec 128 := ((List.range 128).foldl (mulStep x) (0, y)).1

/-! ### The ring -/

/-- The number of bits of a block. -/
def bits : Nat := 128

/-- The modulus of the ring. -/
@[irreducible] noncomputable def modulus : (ZMod 2)[X] := X ^ bits + (X ^ 7 + X ^ 2 + X + 1)

/-- The modulus is its leading term and the bits of `r`. -/
theorem modulus_eq : modulus = X ^ bits + (X ^ 7 + X ^ 2 + X + 1) := by
  delta modulus
  exact Eq.refl _

/-- The polynomials modulo `modulus`. -/
abbrev Quotient : Type := AdjoinRoot modulus

/-- The polynomial of a block. -/
noncomputable def poly (v : BitVec 128) : (ZMod 2)[X] :=
  ∑ i ∈ Finset.range 128, if v.getMsbD i then X ^ i else 0

/-- The element that a block stands for. -/
noncomputable def elem (v : BitVec 128) : Quotient := AdjoinRoot.mk modulus (poly v)

/-- The class of `X`. -/
noncomputable def root : Quotient := AdjoinRoot.root modulus

/-- The coefficients are the bits, the first one being the most significant. -/
theorem coeff_poly (v : BitVec 128) (k : Nat) :
    (poly v).coeff k = if v.getMsbD k then 1 else 0 := by
  have hterm : ∀ i, (if v.getMsbD i then (X ^ i : (ZMod 2)[X]) else 0).coeff k
      = if k = i then (if v.getMsbD k then 1 else 0) else 0 := by
    intro i
    -- Only the term of `k` itself has a coefficient there.
    by_cases hki : k = i
    · subst hki
      by_cases hbit : v.getMsbD k = true
      · simp [hbit]
      · simp [hbit]
    · by_cases hbit : v.getMsbD i = true
      · simp [hbit, coeff_X_pow, hki]
      · simp [hbit, hki]
  rw [poly, finsetSum_coeff, Finset.sum_congr rfl fun i _ => hterm i, Finset.sum_ite_eq]
  simp only [Finset.mem_range]
  by_cases hk : k < 128
  · rw [if_pos hk]
  · rw [if_neg hk, BitVec.getMsbD_of_ge v k (by omega)]
    rfl

@[simp] theorem poly_zero : poly 0 = 0 := by
  ext k
  rw [coeff_poly, coeff_zero]
  simp

/-- The sum of two bits. -/
theorem bit_xor (a b : Bool) :
    (if (a ^^ b) = true then (1 : ZMod 2) else 0)
      = (if a = true then 1 else 0) + (if b = true then 1 else 0) := by
  cases a <;> cases b <;> decide

/-- The polynomial of an exclusive or is the sum. -/
theorem poly_xor (v w : BitVec 128) : poly (v ^^^ w) = poly v + poly w := by
  ext k
  rw [coeff_add, coeff_poly, coeff_poly, coeff_poly, BitVec.getMsbD_xor, bit_xor]

@[simp] theorem elem_zero : elem 0 = 0 := by
  rw [elem, poly_zero, map_zero]

@[simp] theorem elem_xor (v w : BitVec 128) : elem (v ^^^ w) = elem v + elem w := by
  rw [elem, poly_xor, map_add, elem, elem]

/-- Each element is its own opposite. -/
theorem add_self (a : Quotient) : a + a = 0 := by
  have htwo : (2 : Quotient) = 0 := by
    rw [← map_ofNat (AdjoinRoot.of modulus) 2]
    exact map_zero _
  rw [← two_mul, htwo, zero_mul]

/-! ### Multiplication by `X` -/

/-- `r` has its bits at 0, 1, 2 and 7. -/
theorem getMsbD_r (k : Nat) : r.getMsbD k = decide (k = 0 ∨ k = 1 ∨ k = 2 ∨ k = 7) := by
  by_cases hk : k < 128
  · have hbits : ∀ k < 128, r.getMsbD k = decide (k = 0 ∨ k = 1 ∨ k = 2 ∨ k = 7) := by decide
    exact hbits k hk
  · rw [BitVec.getMsbD_of_ge r k (by omega), decide_eq_false (by omega)]

/-- The first bit is the constant coefficient. -/
theorem elem_one : elem (1#128 <<< 127) = 1 := by
  have hbits : ∀ k < 128, (1#128 <<< 127).getMsbD k = decide (k = 0) := by decide
  have hpoly : poly (1#128 <<< 127) = 1 := by
    ext k
    rw [coeff_poly, coeff_one]
    by_cases hk : k < 128
    · rw [hbits k hk]
      simp only [decide_eq_true_eq]
    · have hk₀ : k ≠ 0 := by omega
      rw [BitVec.getMsbD_of_ge _ k (by omega), if_neg hk₀]
      rfl
  rw [elem, hpoly, map_one]

/-- So it is what x to the 128 is congruent to. -/
theorem poly_r : poly r = X ^ 7 + X ^ 2 + X + 1 := by
  ext k
  rw [coeff_poly, getMsbD_r]
  simp only [coeff_add, coeff_X_pow, coeff_X, coeff_one, decide_eq_true_eq]
  -- There are four coefficients that are not zero.
  by_cases h₀ : k = 0
  · subst h₀
    rfl
  by_cases h₁ : k = 1
  · subst h₁
    rfl
  by_cases h₂ : k = 2
  · subst h₂
    rfl
  by_cases h₇ : k = 7
  · subst h₇
    rfl
  · rw [if_neg (by omega), if_neg h₇, if_neg h₂, if_neg (Ne.symm h₁), if_neg h₀]
    rfl

/-- A shift, but for the bit that goes out. -/
theorem poly_shift (v : BitVec 128) :
    poly (v >>> 1) + (if v.getLsbD 0 then X ^ bits else 0) = X * poly v := by
  ext k
  have hlast : v.getLsbD 0 = v.getMsbD 127 := by
    rw [BitVec.getMsbD_eq_getLsbD]
    rfl
  have hout : (if v.getLsbD 0 then (X ^ bits : (ZMod 2)[X]) else 0).coeff k
      = if k = bits ∧ v.getMsbD 127 then 1 else 0 := by
    rw [hlast]
    by_cases hbit : v.getMsbD 127 = true
    · simp [hbit, coeff_X_pow]
    · simp [hbit]
  rw [coeff_add, coeff_poly, hout, BitVec.getMsbD_ushiftRight]
  -- Coefficient by coefficient: the shift moves each up by one, and the bit that falls out is given
  -- back on the left.
  cases k with
  | zero =>
    rw [mul_coeff_zero, coeff_X_zero, zero_mul]
    rfl
  | succ k =>
    rw [coeff_X_mul, coeff_poly, Nat.add_sub_cancel]
    by_cases hk : k < 127
    · simp [show k + 1 < 128 by omega, show k + 1 ≠ bits by unfold bits; omega]
    · by_cases heq : k = 127
      · subst heq
        simp [show 128 = bits from rfl]
      · simp [show ¬ k + 1 < 128 by omega, show k + 1 ≠ bits by unfold bits; omega,
          BitVec.getMsbD_of_ge v k (by omega)]

/-- In the field the root to the 128 is `r`. -/
theorem root_pow : root ^ bits + elem r = 0 := by
  have hparts : root ^ bits + elem r
      = AdjoinRoot.mk modulus (X ^ bits + (X ^ 7 + X ^ 2 + X + 1)) := by
    rw [elem, poly_r, root, ← AdjoinRoot.mk_X, ← map_pow, ← map_add]
  rw [hparts, ← modulus_eq]
  exact AdjoinRoot.mk_self

/-- **A shift is the multiplication by `X`.** -/
theorem elem_mulX (v : BitVec 128) : elem (mulX v) = root * elem v := by
  have hshift : elem (v >>> 1) + (if v.getLsbD 0 then root ^ bits else 0) = root * elem v := by
    have h := congrArg (AdjoinRoot.mk modulus) (poly_shift v)
    rw [map_add, map_mul, AdjoinRoot.mk_X] at h
    rw [elem, elem, root, ← h]
    by_cases hbit : v.getLsbD 0 = true
    · rw [if_pos hbit, if_pos hbit, map_pow, AdjoinRoot.mk_X]
    · rw [if_neg hbit, if_neg hbit, map_zero]
  rw [mulX]
  by_cases hbit : v.getLsbD 0 = true
  · rw [if_pos hbit] at hshift ⊢
    rw [elem_xor, ← hshift]
    -- What goes out comes back as `R`.
    linear_combination add_self (elem r) - root_pow
  · rw [if_neg hbit] at hshift ⊢
    rw [← hshift, add_zero]

/-- Shifting `n` times multiplies by the n-th power of the root. -/
theorem elem_iterate_mulX (n : Nat) (v : BitVec 128) : elem (mulX^[n] v) = root ^ n * elem v := by
  induction n with
  | zero => rw [Function.iterate_zero_apply, pow_zero, one_mul]
  | succ n ih => rw [Function.iterate_succ_apply', elem_mulX, ih, pow_succ', mul_assoc]

/-- Bits that are not there do not go out. -/
theorem elem_shiftRight {n : Nat} {v : BitVec 128} (hlow : ∀ i < n, v.getLsbD i = false) :
    elem (v >>> n) = root ^ n * elem v := by
  induction n with
  | zero => rw [BitVec.ushiftRight_zero, pow_zero, one_mul]
  | succ n ih =>
    have hbit : (v >>> n).getLsbD 0 = false := by
      rw [BitVec.getLsbD_ushiftRight]
      exact hlow n (Nat.lt_succ_self n)
    have hmul : mulX (v >>> n) = v >>> (n + 1) := by
      rw [mulX, if_neg (by rw [hbit]; exact Bool.false_ne_true), BitVec.shiftRight_add]
    rw [← hmul, elem_mulX, ih fun i hi => hlow i (by omega), pow_succ', mul_assoc]

/-! ### The product -/

/-- The steps after `n` bits. -/
theorem mulSteps_eq (x y : BitVec 128) (n : Nat) :
    elem ((List.range n).foldl (mulStep x) (0, y)).1
        = (∑ i ∈ Finset.range n, if x.getMsbD i then root ^ i else 0) * elem y ∧
      elem ((List.range n).foldl (mulStep x) (0, y)).2 = root ^ n * elem y := by
  induction n with
  | zero =>
    rw [Finset.sum_range_zero, zero_mul, pow_zero, one_mul]
    exact ⟨elem_zero, rfl⟩
  | succ n ih =>
    obtain ⟨hz, hv⟩ := ih
    rw [List.range_succ, List.foldl_append, Finset.sum_range_succ, add_mul, ← hz]
    refine ⟨?_, ?_⟩
    · show elem (if x.getMsbD n then _ ^^^ _ else _) = _
      by_cases hbit : x.getMsbD n = true
      · rw [if_pos hbit, if_pos hbit, elem_xor, hv]
      · rw [if_neg hbit, if_neg hbit, zero_mul, add_zero]
    · show elem (mulX _) = _
      rw [elem_mulX, hv, pow_succ', mul_assoc]

/-- An element is the sum of the powers its bits name. -/
theorem elem_eq_sum (v : BitVec 128) :
    elem v = ∑ i ∈ Finset.range 128, if v.getMsbD i then root ^ i else 0 := by
  rw [elem, poly, map_sum]
  refine Finset.sum_congr rfl fun i _ => ?_
  by_cases hbit : v.getMsbD i = true
  · rw [if_pos hbit, if_pos hbit, map_pow, AdjoinRoot.mk_X, root]
  · rw [if_neg hbit, if_neg hbit, map_zero]

/-- **The product of blocks stands for the product in the ring.** -/
theorem elem_mul (x y : BitVec 128) : elem (mul x y) = elem x * elem y := by
  rw [mul, (mulSteps_eq x y 128).1, ← elem_eq_sum]

/-! ### Blocks and their elements -/

/-- The polynomial of a block has a degree below 128. -/
theorem degree_poly_lt (v : BitVec 128) : (poly v).degree < (bits : WithBot Nat) := by
  rw [degree_lt_iff_coeff_zero]
  intro k hk
  rw [coeff_poly, BitVec.getMsbD_of_ge v k hk]
  rfl

/-- The modulus has degree 128. -/
theorem degree_modulus : modulus.degree = (bits : WithBot Nat) := by
  have hlow : (X ^ 7 + X ^ 2 + X + 1 : (ZMod 2)[X]).degree < (X ^ bits : (ZMod 2)[X]).degree := by
    rw [← poly_r, degree_X_pow]
    exact degree_poly_lt r
  rw [modulus_eq, degree_add_eq_left_of_degree_lt hlow, degree_X_pow]

/-- So a block is already reduced. -/
theorem degree_poly_lt_modulus (v : BitVec 128) : (poly v).degree < modulus.degree := by
  rw [degree_modulus]
  exact degree_poly_lt v

/-- A difference has no higher degree than its parts. -/
theorem degree_sub_lt_of {p q : (ZMod 2)[X]} {n : WithBot Nat} (hp : p.degree < n)
    (hq : q.degree < n) : (p - q).degree < n :=
  (degree_sub_le p q).trans_lt (max_lt hp hq)

/-- **A block is known from its element.** -/
theorem elem_injective : Function.Injective elem := by
  intro v w h
  have : Fact (Nat.Prime 2) := ⟨Nat.prime_two⟩
  have hdvd : modulus ∣ poly v - poly w := AdjoinRoot.mk_eq_mk.mp h
  have hdegree : (poly v - poly w).degree < modulus.degree :=
    degree_sub_lt_of (degree_poly_lt_modulus v) (degree_poly_lt_modulus w)
  have hpoly : poly v = poly w := sub_eq_zero.mp (eq_zero_of_dvd_of_degree_lt hdvd hdegree)
  apply BitVec.eq_of_getMsbD_eq
  intro k _
  have hcoeff := congrArg (fun p => p.coeff k) hpoly
  simp only [coeff_poly] at hcoeff
  cases hv : v.getMsbD k <;> cases hw : w.getMsbD k <;> simp_all

/-- Zero times anything is zero. -/
theorem zero_mul (y : BitVec 128) : mul 0 y = 0 := by
  apply elem_injective
  rw [elem_mul, elem_zero, MulZeroClass.zero_mul]

end Gf128

end Icl.Format
