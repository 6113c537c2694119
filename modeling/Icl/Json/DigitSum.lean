import Icl.Json.Meaning
import Icl.Json.Nodes

namespace Icl.Json

open Icl.Cxx Icl.Format

/-!
# The digits of an integer, added up in a `double`

`StringToNumber` adds the digits of an integer up in a `double`, and converts the sum.

* `ReadExactly` — no product and no sum on the way to a number is rounded;
* `intValue_decimal` — then the sum is the number;
* `isDouble_rereadInt` — whatever is read has at most 53 significant bits;
* `sumsUp_of_readExactly`, `SumsUp.isDouble`, `sumsUp_iff` — **which integers sum up**.
-/

open Double (IsDouble HasBits isDouble_of_le)

/-! ### Digits -/

/-- Each prefix of the decimal digits of `m` is a `double`, and so is ten times the prefix that is
    shorter by one digit. -/
def ReadExactly (m : Nat) : Prop := ∀ k, IsDouble (10 * (m / 10 ^ (k + 1))) ∧ IsDouble (m / 10 ^ k)

/-- The prefixes without the last digit are prefixes. -/
theorem div_ten_div (m k : Nat) : m / 10 / 10 ^ k = m / 10 ^ (k + 1) := by
  rw [Nat.div_div_eq_div_mul, Nat.pow_succ, Nat.mul_comm]

theorem ReadExactly.div_ten {m : Nat} (h : ReadExactly m) : ReadExactly (m / 10) := by
  intro k
  rw [div_ten_div, div_ten_div]
  exact h (k + 1)

theorem readExactly_of_le {m : Nat} (h : m ≤ 2 ^ 53) : ReadExactly m := by
  intro k
  have hdiv : m / 10 ^ k ≤ m := Nat.div_le_self _ _
  have hprefix : m / 10 ^ (k + 1) = m / 10 ^ k / 10 := by
    rw [Nat.pow_succ, Nat.div_div_eq_div_mul]
  exact ⟨isDouble_of_le (by omega), isDouble_of_le (by omega)⟩

/-- Up to `2 ^ 54` only the last digit can make a difference. -/
theorem readExactly_iff {m : Nat} (h : m ≤ 2 ^ 54) : ReadExactly m ↔ IsDouble m := by
  constructor
  · intro hm
    have hlast := (hm 0).2
    rwa [Nat.pow_zero, Nat.div_one] at hlast
  · intro hm k
    cases k with
    | zero =>
      rw [Nat.zero_add, Nat.pow_one, Nat.pow_zero, Nat.div_one]
      refine ⟨⟨?_, lt_of_le_of_lt (by omega) hm.lt⟩, hm⟩
      -- Ten times a number is even.
      have heven : 10 * (m / 10) = 5 * (m / 10) * 2 ^ 1 := by omega
      rw [heven]
      exact (Double.hasBits_of_le (by omega)).mul_two_pow 1
    | succ k =>
      have hshort := readExactly_of_le (m := m / 10) (by omega) k
      rwa [div_ten_div, div_ten_div] at hshort

/-- The digits of a number stand for it. -/
theorem decimalValue_decimal (n : Nat) : decimalValue (decimal n) = n := by
  -- `Nat.digits` begins with the lowest one.
  have key : ∀ ds : List Nat, (∀ d ∈ ds, d < 10) →
      decimalValue (ds.reverse.map fun d => UInt8.ofNat (0x30 + d)) = Nat.ofDigits 10 ds := by
    intro ds
    induction ds with
    | nil => exact fun _ => rfl
    | cons d ds ih =>
      intro h
      obtain ⟨hd, hds⟩ := List.forall_mem_cons.mp h
      have hdigit : (UInt8.ofNat (0x30 + d)).toNat - 0x30 = d := by
        rw [UInt8.toNat_ofNat']
        omega
      have hrest := ih hds
      rw [decimalValue] at hrest
      rw [decimalValue, List.reverse_cons, List.map_append, List.foldl_append, hrest,
        Nat.ofDigits_cons]
      simp only [List.map_cons, List.map_nil, List.foldl_cons, List.foldl_nil, hdigit]
      omega
  unfold decimal
  split_ifs with hzero
  · rw [hzero]
    rfl
  · rw [key _ fun d hd => Nat.digits_lt_base (by decide) hd, Nat.ofDigits_digits]

theorem decimal_of_lt {m : Nat} (h : m < 10) : decimal m = [UInt8.ofNat (0x30 + m)] := by
  rw [decimal]
  split_ifs with hzero
  · rw [hzero]
    rfl
  · rw [Nat.digits_of_lt 10 m hzero h]
    rfl

theorem decimal_append {m : Nat} (h : 10 ≤ m) :
    decimal m = decimal (m / 10) ++ [UInt8.ofNat (0x30 + m % 10)] := by
  rw [decimal, decimal, if_neg (by omega), if_neg (by omega),
    Nat.digits_def' (by decide) (by omega), List.reverse_cons, List.map_append]
  rfl

/-- The double of a digit. -/
theorem digitToDouble_digit {d : Nat} (h : d < 10) :
    digitToDouble (UInt8.ofNat (0x30 + d)) = .ofNat d := by
  rw [digitToDouble, UInt8.toNat_ofNat']
  congr 1
  omega

/-! ### The sum -/

/-- One more digit. -/
theorem intValue_append (ds : Bytes) (d : UInt8) : intValue (.ofNat 0) (ds ++ [d])
    = ((intValue (.ofNat 0) ds).mul (.ofNat 10)).add (digitToDouble d) := by
  rw [intValue, List.foldl_append]
  rfl

/-- **Without a rounding the sum is the number.** -/
theorem intValue_decimal {m : Nat} (h : ReadExactly m) :
    intValue (.ofNat 0) (decimal m) = .ofNat m := by
  -- By induction on the number without its last digit.
  induction m using Nat.strong_induction_on with
  | _ m ih =>
    obtain ⟨hproduct, hsum⟩ := h 0
    rw [Nat.zero_add, Nat.pow_one] at hproduct
    rw [Nat.pow_zero, Nat.div_one] at hsum
    rcases Nat.lt_or_ge m 10 with hlt | hge
    · have hzero : IsDouble (0 * 10) := isDouble_of_le (by decide)
      rw [decimal_of_lt hlt, ← List.nil_append [UInt8.ofNat _], intValue_append]
      show ((Double.ofNat 0).mul (.ofNat 10)).add _ = _
      rw [digitToDouble_digit hlt, Double.ofNat_mul hzero, Double.ofNat_add (by simpa using hsum),
        Nat.zero_mul, Nat.zero_add]
    · have hsplit : m / 10 * 10 + m % 10 = m := by omega
      rw [decimal_append hge, intValue_append, ih (m / 10) (by omega) h.div_ten,
        digitToDouble_digit (Nat.mod_lt _ (by decide)),
        Double.ofNat_mul (by rwa [Nat.mul_comm] at hproduct),
        Double.ofNat_add (by rwa [hsplit]), hsplit]

/-- The sum is one that has been rounded. -/
theorem rounded_intValue (m : Nat) : Double.Rounded (intValue (.ofNat 0) (decimal m)) := by
  rcases Nat.lt_or_ge m 10 with hlt | hge
  · rw [decimal_of_lt hlt, ← List.nil_append [UInt8.ofNat _], intValue_append]
    exact Double.rounded_add _ _
  · rw [decimal_append hge, intValue_append]
    exact Double.rounded_add _ _

/-! ### Integers -/

/-- **The integers that are read without a rounding** sum up. -/
theorem sumsUp_of_readExactly {n : Int} (hle : -2 ^ 63 ≤ n) (hlt : n < 2 ^ 63)
    (h : ReadExactly n.natAbs) : SumsUp n := by
  rw [SumsUp, rereadInt, intValue_decimal h]
  split_ifs with hneg
  · rw [Double.toInt64_neg_ofNat (by omega)]
    omega
  · rw [Double.toInt64_ofNat (by omega)]
    omega

/-- **Whatever is read** has at most 53 significant bits. -/
theorem isDouble_rereadInt (n : Int) : IsDouble (rereadInt n).natAbs := by
  rw [rereadInt]
  split_ifs
  · exact Double.isDouble_toInt64 (Double.rounded_neg (rounded_intValue _))
  · exact Double.isDouble_toInt64 (rounded_intValue _)

/-- No other integer sums up than one of at most 53 significant bits. -/
theorem SumsUp.isDouble {n : Int} (h : SumsUp n) : IsDouble n.natAbs :=
  (congrArg Int.natAbs h) ▸ isDouble_rereadInt n

/-- Up to `2 ^ 54` all of these do. -/
theorem sumsUp_iff {n : Int} (h : n.natAbs ≤ 2 ^ 54) : SumsUp n ↔ IsDouble n.natAbs :=
  ⟨SumsUp.isDouble, fun hbits =>
    sumsUp_of_readExactly (by omega) (by omega) ((readExactly_iff h).mpr hbits)⟩

end Icl.Json
