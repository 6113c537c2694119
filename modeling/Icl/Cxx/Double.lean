import Icl.Cxx.Bytes
import Mathlib.Data.Nat.Log
import Mathlib.Tactic.Ring

namespace Icl.Cxx

/-!
# `double` as IEEE 754 binary64

Every finite `double` is a whole number of units of `2^-1074`, so it is held as a sign and
that number.  The operations compute the exact result and round it once, to the nearest
`double`, ties to even.

* `Double.mul`, `Double.add`, `Double.neg`, `Double.toInt64`;
* `Double.IsDouble` — the whole numbers with at most 53 significant bits;
* `Double.ofNat_mul`, `Double.ofNat_add` — where the result is one of these, nothing is rounded;
* `Double.isDouble_toInt64` — a sum is cut to one of them.
-/

/-- A `double`; `units` counts multiples of `2^-1074`. -/
inductive Double where
  | nan (neg : Bool)
  | infinite (neg : Bool)
  | finite (neg : Bool) (units : Nat)
  deriving DecidableEq, Repr

namespace Double

/-- The units in one: `2 ^ unitBits`. -/
def unitBits : Nat := 1074

/-- The first power of two, in units, that is too large for a `double`. -/
def limitBits : Nat := 2098

/-! ### Rounding -/

/-- `p / 2 ^ k`, rounded to the nearest, ties to even. -/
def roundHalfEven (p k : Nat) : Nat :=
  let q := p / 2 ^ k
  let r := p % 2 ^ k
  if 2 * r < 2 ^ k then q else if 2 ^ k < 2 * r then q + 1 else q + q % 2

/-- `p / 2 ^ scale`, rounded to a whole number with at most 53 significant bits. -/
def roundAt (scale p : Nat) : Nat :=
  let k := max scale (Nat.log2 p - 52)
  roundHalfEven p k * 2 ^ (k - scale)

/-- The `double` nearest to `p` units of `2 ^ -scale` units. -/
def ofMagnitude (neg : Bool) (scale p : Nat) : Double :=
  let n := roundAt scale p
  if n < 2 ^ limitBits then .finite neg n else .infinite neg

/-! ### Operations -/

/-- A whole number that is a `double`. -/
def ofNat (n : Nat) : Double := .finite false (n * 2 ^ unitBits)

/-- The literal `0.1`. -/
def tenth : Double := .finite false (7205759403792794 * 2 ^ (unitBits - 56))

/-- `-x`. -/
def neg : Double → Double
  | .nan s => .nan (!s)
  | .infinite s => .infinite (!s)
  | .finite s n => .finite (!s) n

/-- `x + y`. -/
def add : Double → Double → Double
  | .nan s, _ => .nan s
  | _, .nan s => .nan s
  | .infinite s, .infinite t => if s = t then .infinite s else .nan true
  | .infinite s, _ => .infinite s
  | _, .infinite t => .infinite t
  | .finite s m, .finite t n =>
    if s = t then ofMagnitude s 0 (m + n)
    else if n < m then ofMagnitude s 0 (m - n)
    else if m < n then ofMagnitude t 0 (n - m)
    else .finite false 0

/-- `x * y`.  An operation that makes a NaN out of numbers makes the one with the sign bit. -/
def mul : Double → Double → Double
  | .nan s, _ => .nan s
  | _, .nan s => .nan s
  | .infinite s, .infinite t => .infinite (s != t)
  | .infinite s, .finite t n => if n = 0 then .nan true else .infinite (s != t)
  | .finite s m, .infinite t => if m = 0 then .nan true else .infinite (s != t)
  | .finite s m, .finite t n => ofMagnitude (s != t) unitBits (m * n)

/-- `static_cast<std::int64_t>(x)`: the fraction is cut off; what does not fit gives the
    smallest integer. -/
def toInt64 : Double → Int
  | .finite s n =>
    let t : Int := (n / 2 ^ unitBits : Nat)
    let v := if s then -t else t
    if -(2 ^ 63) ≤ v ∧ v < 2 ^ 63 then v else -(2 ^ 63)
  | _ => -(2 ^ 63)

/-- A correctly rounded sum: 0.1 + 0.2 is not 0.3 but its successor. -/
example : add tenth (add tenth tenth) = .finite false (5404319552844596 * 2 ^ (unitBits - 54)) := by
  decide +kernel

/-! ### Whole numbers -/

/-- Nothing is lost when the discarded bits are zero. -/
theorem roundHalfEven_mul (q k : Nat) : roundHalfEven (q * 2 ^ k) k = q := by
  have hpos : 0 < 2 ^ k := Nat.two_pow_pos k
  simp [roundHalfEven, hpos]

/-- A number of at most 53 bits that is a multiple of the last place is not rounded. -/
theorem roundAt_exact {q j scale : Nat} (hq : q < 2 ^ 53) (hscale : scale ≤ j) :
    roundAt scale (q * 2 ^ j) = q * 2 ^ (j - scale) := by
  have hk : max scale (Nat.log2 (q * 2 ^ j) - 52) ≤ j := by
    refine max_le hscale ?_
    by_cases hzero : q * 2 ^ j = 0
    · simp [hzero]
    · have hlt : q * 2 ^ j < 2 ^ (53 + j) := by
        rw [Nat.pow_add]
        exact Nat.mul_lt_mul_of_pos_right hq (Nat.two_pow_pos j)
      have := (Nat.log2_lt hzero).mpr hlt
      omega
  obtain ⟨i, hi⟩ := Nat.exists_eq_add_of_le hk
  have hle : scale ≤ max scale (Nat.log2 (q * 2 ^ j) - 52) := le_max_left _ _
  rw [roundAt]
  generalize max scale (Nat.log2 (q * 2 ^ j) - 52) = k at hi hle
  -- The bits between the last place and the multiple go to the quotient.
  have hsplit : q * 2 ^ j = q * 2 ^ i * 2 ^ k := by rw [hi, Nat.pow_add]; ring
  have hexp : j - scale = i + (k - scale) := by omega
  rw [hsplit, roundHalfEven_mul, hexp, Nat.pow_add, Nat.mul_assoc]

/-- At most 53 significant bits. -/
def HasBits (n : Nat) : Prop := ∃ q e, q < 2 ^ 53 ∧ n = q * 2 ^ e

/-- The whole numbers that are a `double`. -/
structure IsDouble (n : Nat) : Prop where
  bits : HasBits n
  lt : n < 2 ^ (limitBits - unitBits)

/-- Up to 2^53 every number fits the significand. -/
theorem hasBits_of_le {n : Nat} (h : n ≤ 2 ^ 53) : HasBits n := by
  rcases Nat.lt_or_eq_of_le h with hlt | rfl
  · exact ⟨n, 0, hlt, by rw [Nat.pow_zero, Nat.mul_one]⟩
  · exact ⟨1, 53, by decide, by rw [Nat.one_mul]⟩

/-- A number that fits still does after doubling. -/
theorem HasBits.mul_two_pow {n : Nat} (h : HasBits n) (k : Nat) : HasBits (n * 2 ^ k) := by
  obtain ⟨q, e, hq, rfl⟩ := h
  exact ⟨q, e + k, hq, by rw [Nat.pow_add, Nat.mul_assoc]⟩

/-- The bits that are cut off leave no more bits than there were. -/
theorem HasBits.div_two_pow {n : Nat} (h : HasBits n) (k : Nat) : HasBits (n / 2 ^ k) := by
  obtain ⟨q, e, hq, rfl⟩ := h
  by_cases hk : k ≤ e
  · refine ⟨q, e - k, hq, ?_⟩
    have hsplit : q * 2 ^ e = q * 2 ^ (e - k) * 2 ^ k := by
      rw [Nat.mul_assoc, ← Nat.pow_add, Nat.sub_add_cancel hk]
    rw [hsplit, Nat.mul_div_cancel _ (Nat.two_pow_pos k)]
  · have hsplit : 2 ^ k = 2 ^ (k - e) * 2 ^ e := by
      rw [← Nat.pow_add, Nat.sub_add_cancel (by omega)]
    rw [hsplit, Nat.mul_div_mul_right _ _ (Nat.two_pow_pos e)]
    exact hasBits_of_le ((Nat.div_le_self _ _).trans hq.le)

/-- Up to 2^53 every number is a double. -/
theorem isDouble_of_le {n : Nat} (h : n ≤ 2 ^ 53) : IsDouble n :=
  ⟨hasBits_of_le h, h.trans_lt (Nat.pow_lt_pow_right (by decide) (by decide))⟩

private theorem ofMagnitude_exact {n j scale : Nat} (hn : IsDouble n) (hj : j = unitBits + scale) :
    ofMagnitude false scale (n * 2 ^ j) = ofNat n := by
  obtain ⟨⟨q, e, hq, rfl⟩, hlt⟩ := hn
  have hround : roundAt scale (q * 2 ^ e * 2 ^ j) = q * 2 ^ e * 2 ^ unitBits := by
    rw [Nat.mul_assoc, ← Nat.pow_add, roundAt_exact hq (by omega), Nat.mul_assoc, ← Nat.pow_add]
    congr 2
    omega
  have hlt' : q * 2 ^ e * 2 ^ unitBits < 2 ^ limitBits := by
    calc q * 2 ^ e * 2 ^ unitBits < 2 ^ (limitBits - unitBits) * 2 ^ unitBits :=
          Nat.mul_lt_mul_of_pos_right hlt (Nat.two_pow_pos _)
      _ = 2 ^ limitBits := by rw [← Nat.pow_add, Nat.sub_add_cancel (by decide)]
  unfold ofMagnitude ofNat
  simp only [hround, if_pos hlt']

/-- A product that is a double is computed exactly. -/
theorem ofNat_mul {a b : Nat} (h : IsDouble (a * b)) :
    mul (ofNat a) (ofNat b) = ofNat (a * b) := by
  have hprod : a * 2 ^ unitBits * (b * 2 ^ unitBits) = a * b * 2 ^ (unitBits + unitBits) := by
    rw [Nat.pow_add]
    ring
  unfold mul ofNat
  dsimp only
  rw [hprod, bne_self_eq_false]
  exact ofMagnitude_exact h rfl

/-- A sum that is a double is computed exactly. -/
theorem ofNat_add {a b : Nat} (h : IsDouble (a + b)) :
    add (ofNat a) (ofNat b) = ofNat (a + b) := by
  unfold add ofNat
  dsimp only
  rw [if_pos rfl, ← Nat.add_mul]
  exact ofMagnitude_exact h (Nat.add_zero _).symm

/-! ### What is rounded -/

/-- What is rounded has at most 53 significant bits. -/
theorem hasBits_roundAt (scale p : Nat) : HasBits (roundAt scale p) := by
  rw [roundAt]
  refine HasBits.mul_two_pow (hasBits_of_le ?_) _
  have hk : Nat.log2 p - 52 ≤ max scale (Nat.log2 p - 52) := le_max_right _ _
  generalize max scale (Nat.log2 p - 52) = k at hk
  have hq : p / 2 ^ k < 2 ^ 53 := by
    rw [Nat.div_lt_iff_lt_mul (Nat.two_pow_pos k), ← Nat.pow_add]
    exact Nat.lt_log2_self.trans_le (Nat.pow_le_pow_right (by decide) (by omega))
  rw [roundHalfEven]
  split_ifs <;> omega

/-- The units of the `double`, if it is finite, have at most 53 significant bits. -/
def Rounded (x : Double) : Prop := ∀ s units, x = .finite s units → HasBits units

/-- What rounding gives needs no further rounding. -/
theorem rounded_ofMagnitude (s : Bool) (scale p : Nat) : Rounded (ofMagnitude s scale p) := by
  intro t units h
  unfold ofMagnitude at h
  generalize 2 ^ limitBits = limit at h
  dsimp only at h
  split_ifs at h
  cases h
  exact hasBits_roundAt scale p

/-- **Every sum is a double**, whatever is added. -/
theorem rounded_add (x y : Double) : Rounded (add x y) := by
  cases x with
  | nan s => cases y <;> rintro _ _ ⟨⟩
  | infinite s =>
    cases y with
    | infinite t =>
      unfold add
      dsimp only
      split_ifs <;> rintro _ _ ⟨⟩
    | _ => rintro _ _ ⟨⟩
  | finite s m =>
    cases y with
    -- Equal signs add the magnitudes; otherwise the smaller one is taken from the greater.
    | finite t n =>
      unfold add
      dsimp only
      split_ifs
      · exact rounded_ofMagnitude s 0 (m + n)
      · exact rounded_ofMagnitude s 0 (m - n)
      · exact rounded_ofMagnitude t 0 (n - m)
      · rintro _ _ ⟨⟩
        exact hasBits_of_le (Nat.zero_le _)
    | _ => rintro _ _ ⟨⟩

/-- Changing the sign of a double gives a double. -/
theorem rounded_neg {x : Double} (h : Rounded x) : Rounded (neg x) := by
  cases x with
  | finite s units =>
    rintro _ _ ⟨⟩
    exact h s units rfl
  | _ => rintro _ _ ⟨⟩

/-- **What a rounded number is cut to** has at most 53 significant bits. -/
theorem isDouble_toInt64 {x : Double} (h : Rounded x) : IsDouble (toInt64 x).natAbs := by
  have hlimit : 2 ^ 63 < 2 ^ (limitBits - unitBits) :=
    Nat.pow_lt_pow_right (by decide) (by decide)
  have hsmallest : IsDouble (-(2 ^ 63) : Int).natAbs := ⟨⟨1, 63, by decide, by decide⟩, hlimit⟩
  cases x with
  | finite s units =>
    unfold toInt64
    dsimp only
    -- Out of range the conversion gives the smallest integer, inside it cuts the fraction off.
    split_ifs with hneg hfits hfits
    · rw [Int.natAbs_neg, Int.natAbs_natCast]
      exact ⟨(h s units rfl).div_two_pow _, lt_of_le_of_lt (by omega) hlimit⟩
    · exact hsmallest
    · rw [Int.natAbs_natCast]
      exact ⟨(h s units rfl).div_two_pow _, lt_of_le_of_lt (by omega) hlimit⟩
    · exact hsmallest
  | _ => exact hsmallest

/-- A natural number below 2^63 comes back from its double, when that is exact. -/
theorem toInt64_ofNat {n : Nat} (h : n < 2 ^ 63) : toInt64 (ofNat n) = n := by
  have hdiv : n * 2 ^ unitBits / 2 ^ unitBits = n := Nat.mul_div_cancel _ (Nat.two_pow_pos _)
  simp only [ofNat, toInt64, hdiv, Bool.false_eq_true, if_false]
  rw [if_pos (by omega)]

/-- So does its negative, 2^63 included. -/
theorem toInt64_neg_ofNat {n : Nat} (h : n ≤ 2 ^ 63) : toInt64 (neg (ofNat n)) = -(n : Int) := by
  have hdiv : n * 2 ^ unitBits / 2 ^ unitBits = n := Nat.mul_div_cancel _ (Nat.two_pow_pos _)
  simp only [ofNat, neg, toInt64, hdiv, Bool.not_false, if_true]
  rw [if_pos (by omega)]

end Double

end Icl.Cxx
