import Icl.Json.Scan

namespace Icl.Json

open Icl.Cxx Icl.Format

/-!
# The exponent of a number

`StringToNumber` adds the digits of an exponent up in an `int`, without a bound, and then shifts the
exponent to the right until it is 0.

* `exponentDigits` — the digits of the exponent of what begins a text;
* `defined_stringToNumber_iff` — the loop ends if the exponent, wrapped around, is not negative;
* `exponentSums_le_iff` — when the `int` overflows;
* `scansExponent_iff` — when neither happens.
-/

/-! ### The digits -/

/-- What follows a sign, if there is one. -/
def afterSign (s : Bytes) : Bytes :=
  if s.head? = some 0x2B ∨ s.head? = some 0x2D then s.tail else s

/-- What follows a point and its digits, if there are any. -/
def afterPoint (s : Bytes) : Bytes :=
  if s.head? = some 0x2E then s.tail.dropWhile isdigit else s

/-- What follows the letter of an exponent, if there is one, and its sign. -/
def exponentText (s : Bytes) : Option Bytes :=
  if s.head? = some 0x65 ∨ s.head? = some 0x45 then some (afterSign s.tail) else none

/-- The digits of the exponent of the number that a text begins with, none if it has none. -/
def exponentDigits (s : Bytes) : Bytes :=
  match exponentText (afterPoint ((afterSign s).dropWhile isdigit)) with
  | some s => s.takeWhile isdigit
  | none => []

section Scanning

variable {s : Bytes}

/-- A character that is not the zero can be passed. -/
theorem Terminated.tail {c : UInt8} (h : Terminated s) (hhead : s.head? = some c) (hc : c ≠ 0) :
    Terminated s.tail := by
  rcases h.cases with rfl | ⟨d, s, rfl, -, hs⟩
  · exact absurd (Option.some.inj hhead).symm hc
  · exact hs

/-- In a terminated text the cursor can be read. -/
theorem deref_of_terminated (h : Terminated s) : ∃ c, deref s = .ok c ∧ s.head? = some c := by
  rcases h.cases with rfl | ⟨c, s, rfl, -, -⟩
  · exact ⟨0, rfl, rfl⟩
  · exact ⟨c, rfl, rfl⟩

/-- A sign can be passed. -/
theorem Terminated.afterSign (h : Terminated s) : Terminated (afterSign s) := by
  rw [Json.afterSign]
  split_ifs with hsign
  · rcases hsign with hplus | hminus
    · exact h.tail hplus (by decide)
    · exact h.tail hminus (by decide)
  · exact h

/-- The point and its digits are passed without a fault. -/
theorem scanPoint_eq (h : Terminated s) (result : Double) :
    ∃ hasPoint result', scanPoint s result = .ok (hasPoint, result', afterPoint s) ∧
      Terminated (afterPoint s) := by
  obtain ⟨c, hderef, hhead⟩ := deref_of_terminated h
  rw [scanPoint, hderef, ok_bind, afterPoint, hhead]
  by_cases hpoint : c = 0x2E
  · have htail := h.tail hhead (by rw [hpoint]; decide)
    rw [if_pos hpoint, if_pos (congrArg some hpoint), scanFraction_eq htail]
    exact ⟨_, _, rfl, htail.dropWhile rfl⟩
  · rw [if_neg hpoint, if_neg fun heq => hpoint (Option.some.inj heq)]
    exact ⟨_, _, rfl, h⟩

/-- So is the sign of the exponent. -/
theorem scanExponentSign_eq (h : Terminated s) :
    ∃ base, scanExponentSign s = .ok (base, afterSign s) := by
  obtain ⟨c, hderef, hhead⟩ := deref_of_terminated h
  rw [scanExponentSign, hderef, ok_bind, afterSign, hhead]
  simp only [Option.some.injEq]
  by_cases hplus : c = 0x2B
  · rw [if_pos hplus, if_pos (.inl hplus)]
    exact ⟨_, rfl⟩
  · by_cases hminus : c = 0x2D
    · rw [if_neg hplus, if_pos hminus, if_pos (.inr hminus)]
      exact ⟨_, rfl⟩
    · rw [if_neg hplus, if_neg hminus, if_neg (not_or.mpr ⟨hplus, hminus⟩)]
      exact ⟨_, rfl⟩

/-- **The loop for the power ends** exactly when the exponent is not negative. -/
theorem defined_powerOf (exponent : Int) (base : Double) :
    Defined (powerOf exponent base) ↔ 0 ≤ exponent := by
  rw [powerOf]
  split_ifs with hneg
  · simp [not_le.mpr hneg]
  · simp [not_lt.mp hneg]

/-- So the exponent is the only part that decides whether reading ends. -/
theorem defined_scanExp (h : Terminated s) (result : Double) :
    Defined (scanExp s result) ↔
      ∀ s' ∈ exponentText s, 0 ≤ exponentValue 0 (s'.takeWhile isdigit) := by
  obtain ⟨c, hderef, hhead⟩ := deref_of_terminated h
  rw [scanExp, hderef, ok_bind, exponentText, hhead]
  simp only [Option.some.injEq]
  split_ifs with hletter
  · have htail : Terminated s.tail := h.tail hhead (by rcases hletter with rfl | rfl <;> decide)
    obtain ⟨base, hsign⟩ := scanExponentSign_eq htail
    simp only [hsign, ok_bind, scanExponent_eq htail.afterSign, pure_eq_ok, defined_bind_ok,
      defined_powerOf, Option.mem_some_iff, forall_eq']
  · simp

end Scanning

/-- **The loop over the bits of the exponent ends** exactly when the exponent, as it has been
    wrapped around, is not negative. -/
theorem defined_stringToNumber_iff {s : Bytes} (h : Terminated s) :
    Defined (stringToNumber s) ↔ 0 ≤ exponentValue 0 (exponentDigits s) := by
  obtain ⟨c, hderef, hhead⟩ := deref_of_terminated h
  have hsign : (if c = 0x2B ∨ c = 0x2D then s.tail else s) = afterSign s := by
    rw [afterSign, hhead]
    simp only [Option.some.injEq]
  obtain ⟨hasPoint, result, hpoint, hrest⟩ := scanPoint_eq
    (h.afterSign.dropWhile (p := isdigit) rfl)
    (intValue (.ofNat 0) ((afterSign s).takeWhile isdigit))
  have hexp : Defined (stringToNumber s) ↔
      Defined (scanExp (afterPoint ((afterSign s).dropWhile isdigit)) result) := by
    simp only [stringToNumber, hderef, ok_bind, hsign, scanInt_eq h.afterSign, hpoint, pure_eq_ok,
      defined_bind_ok]
  rw [hexp, defined_scanExp hrest, exponentDigits]
  cases exponentText (afterPoint ((afterSign s).dropWhile isdigit)) with
  | none => simp [exponentValue]
  | some s' => simp

/-! ### The sums -/

/-- `INT_MAX`. -/
def intMax : Int := 2 ^ 31 - 1

/-- The values of `(exponent * 10) + (*s++ - '0')`, before they are stored in the `int`. -/
def exponentSums : Int → Bytes → List Int
  | _, [] => []
  | exponent, c :: ds =>
    (exponent * 10 + (c.toNat - 0x30))
      :: exponentSums (int32 (exponent * 10 + (c.toNat - 0x30))) ds

/-- The value of the digits, behind a number. -/
def decimalFrom (n : Nat) (ds : Bytes) : Nat :=
  ds.foldl (fun n d => n * 10 + (d.toNat - 0x30)) n

/-- A number that fits `int` is kept. -/
theorem int32_of_fits {n : Nat} (h : (n : Int) ≤ intMax) : int32 n = n := by
  rw [intMax] at h
  exact Int.bmod_eq_of_le (by omega) (by omega)

/-- The value of a digit, with or without a sign. -/
theorem digit_sub {d : UInt8} (h : isdigit d = true) : ((d.toNat - 0x30 : Nat) : Int)
    = (d.toNat : Int) - 0x30 := by
  have hle : 0x30 ≤ d.toNat := by
    have := forall_byte (p := fun c => !isdigit c || decide (0x30 ≤ c.toNat)) (by decide +kernel) d
    simpa [h] using this
  omega

/-- **No sum overflows** exactly when the value of all digits does not: the sums only grow. -/
theorem exponentSums_le_iff {ds : Bytes} (hds : Digits ds) {n : Nat} (hn : (n : Int) ≤ intMax) :
    (∀ v ∈ exponentSums n ds, v ≤ intMax) ↔ (decimalFrom n ds : Int) ≤ intMax := by
  induction ds generalizing n with
  | nil => simpa [exponentSums, decimalFrom] using hn
  | cons d ds ih =>
    obtain ⟨hd, hds⟩ := List.forall_mem_cons.mp hds
    have hsum : (n : Int) * 10 + (d.toNat - 0x30) = (n * 10 + (d.toNat - 0x30) : Nat) := by
      rw [← digit_sub hd]
      push_cast
      rfl
    have hstep : decimalFrom n (d :: ds) = decimalFrom (n * 10 + (d.toNat - 0x30)) ds := rfl
    rw [exponentSums, List.forall_mem_cons, hsum, hstep]
    by_cases hfits : ((n * 10 + (d.toNat - 0x30) : Nat) : Int) ≤ intMax
    · rw [int32_of_fits hfits, ih hds hfits]
      exact and_iff_right hfits
    · have hgrows : _ ≤ decimalFrom _ ds := le_foldl_decimal ds (n * 10 + (d.toNat - 0x30))
      exact iff_of_false (fun h => hfits h.1) (by omega)

/-- Without an overflow the exponent is the value of its digits. -/
theorem exponentValue_eq {ds : Bytes} (hds : Digits ds) {n : Nat}
    (h : (decimalFrom n ds : Int) ≤ intMax) : exponentValue n ds = decimalFrom n ds := by
  induction ds generalizing n with
  | nil => rfl
  | cons d ds ih =>
    obtain ⟨hd, hds⟩ := List.forall_mem_cons.mp hds
    have hgrows : _ ≤ decimalFrom _ ds := le_foldl_decimal ds (n * 10 + (d.toNat - 0x30))
    have hstep : decimalFrom n (d :: ds) = decimalFrom (n * 10 + (d.toNat - 0x30)) ds := rfl
    rw [hstep] at h ⊢
    have hfits : int32 ((n : Int) * 10 + (d.toNat - 0x30))
        = (n * 10 + (d.toNat - 0x30) : Nat) := by
      rw [← int32_of_fits (n := n * 10 + (d.toNat - 0x30)) (by omega), ← digit_sub hd]
      push_cast
      rfl
    rw [exponentValue, List.foldl_cons, hfits]
    exact ih hds h

/-! ### Scanning without an overflow -/

/-- `StringToNumber` terminates, and the exponent never exceeds `INT_MAX` on the way. -/
structure ScansExponent (s : Bytes) : Prop where
  terminates : Defined (stringToNumber s)
  bounded : ∀ v ∈ exponentSums 0 (exponentDigits s), v ≤ intMax

/-- The digits of the exponent are digits. -/
theorem digits_exponentDigits (s : Bytes) : Digits (exponentDigits s) := by
  rw [exponentDigits]
  split
  · exact digits_takeWhile _
  · exact fun d hd => absurd hd List.not_mem_nil

/-- **When a number is scanned without an overflow**: the decimal value of its exponent is at most
    `INT_MAX`. -/
theorem scansExponent_iff (s : Bytes) (h : Terminated s) :
    ScansExponent s ↔ decimalValue (exponentDigits s) ≤ 2 ^ 31 - 1 := by
  have hds := digits_exponentDigits s
  have hsums := exponentSums_le_iff hds (n := 0) (by decide)
  have hvalue : (decimalFrom 0 (exponentDigits s) : Int) ≤ intMax ↔
      decimalValue (exponentDigits s) ≤ 2 ^ 31 - 1 := by
    show (decimalValue (exponentDigits s) : Int) ≤ intMax ↔ _
    rw [intMax]
    omega
  rw [← hvalue]
  constructor
  · intro hscans
    exact hsums.mp hscans.bounded
  · intro hfits
    refine ⟨(defined_stringToNumber_iff h).mpr ?_, hsums.mpr hfits⟩
    rw [show (0 : Int) = (0 : Nat) from rfl, exponentValue_eq hds hfits]
    exact Int.natCast_nonneg _

/-- An exponent of two digits. -/
theorem scansExponent_small : ScansExponent (ascii "1e10" ++ [0]) :=
  (scansExponent_iff _ ⟨ascii "1e10", rfl, by decide⟩).mpr (by decide +kernel)

/-- The smallest exponent that overflows becomes negative, and the loop does not end. -/
theorem not_scansExponent_overflow : ¬ ScansExponent (ascii "1e2147483648" ++ [0]) := by
  intro h
  have hdefined := h.terminates
  rw [defined_stringToNumber_iff ⟨ascii "1e2147483648", rfl, by decide⟩] at hdefined
  exact absurd hdefined (by decide +kernel)

end Icl.Json
